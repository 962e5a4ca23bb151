import SpeechTranscript.Proofs.Json.Grammar

/-!
# What is read from JSON texts

A JSON text has one outcome, a value or none, wherever it stands: it does not matter how deep it is
nested, what spaces stand before it and what comes after it, as long as the reader can go that deep
and a number ends where the text ends. The outcome of an array or of an object follows from those of
its parts: there is none if one part has none.

* `settled_scalar`, `yields_items`, `yields_members`: the outcome of each kind of text.
* `exists_settled`: the outcome of a text, by its levels.
-/

namespace SpeechTranscript.Json

/-! ## Numbers -/

section Numbers

variable {negative : Bool} {cs fraction exponent rest : List Char}

/-- What follows a number only decides where a fault is, not whether there is one. -/
theorem toOption_finiteFloat (x : Float) (rest rest' : List Char) :
    (finiteFloat x rest).toOption = (finiteFloat x rest').toOption := by
  unfold finiteFloat
  split <;> rfl

theorem toOption_wholeNumber (n : ℕ) (rest rest' : List Char) :
    (wholeNumber negative n rest).toOption = (wholeNumber negative n rest').toOption := by
  unfold wholeNumber
  split <;> split <;> first | rfl | exact toOption_finiteFloat _ _ _

/-- What becomes of a number with a fraction or an exponent does not depend on the rest either. -/
theorem toOption_decimalNumber (whole ds : List Char) (power : Option (Bool × List Char))
    (rest rest' : List Char) :
    (decimalNumber negative whole ds power rest).toOption =
      (decimalNumber negative whole ds power rest').toOption := by
  unfold decimalNumber
  cases power with
  | none => exact toOption_finiteFloat _ _ _
  | some power =>
    obtain ⟨below, digits⟩ := power
    dsimp only
    split
    · split <;> rfl
    · exact toOption_finiteFloat _ _ _

/-- A fraction is taken whole, and so is one that is missing if no point follows. -/
theorem IsFraction.takes (h : IsFraction fraction) : ∃ ds, ∀ rest, EndsDigits rest →
    (∀ c ∈ rest.head?, c ≠ '.') → Takes (readFraction (fraction ++ rest)) ds rest := by
  rcases h with rfl | ⟨ds, hds, rfl⟩
  · exact ⟨[], fun rest _ hpoint => takes_no_fraction hpoint⟩
  · exact ⟨ds, fun rest hrest _ => takes_fraction hds hrest⟩

/-- Digits have no sign in front. -/
theorem takeSign_digits {ds : List Char} (hds : IsDigits ds) (rest : List Char) :
    takeSign (ds ++ rest) = ⟨false, ds ++ rest, le_rfl⟩ := by
  have hsign : ∀ c more, ds ++ rest = c :: more → c.isDigit = true := by
    rintro c more heq
    obtain ⟨d, ds, rfl⟩ := List.exists_cons_of_ne_nil hds.1
    obtain rfl := (List.cons.inj heq).1
    exact hds.2 d List.mem_cons_self
  rw [takeSign]
  · -- neither sign is a digit
    intro more heq
    exact absurd (hsign '+' more heq) (by decide)
  · intro more heq
    exact absurd (hsign '-' more heq) (by decide)

/-- The mark of an exponent, with the sign and the digits behind it. -/
theorem takes_marked {mark : Char} {ds : List Char} {sign : Taken Bool cs}
    (hmark : mark = 'e' ∨ mark = 'E') (hsign : takeSign cs = sign)
    (hdigits : Reads (readDigits sign.rest) ds rest) :
    Takes (readExponent (mark :: cs)) (some (sign.value, ds)) rest := by
  have hstart : (mark == 'e' || mark == 'E') = true := by
    rcases hmark with rfl | rfl <;> rfl
  subst hsign
  obtain ⟨shorter, hdigits⟩ := hdigits
  rw [readExponent, if_pos hstart]
  dsimp only
  rw [hdigits, ok_bind]
  exact ⟨_, rfl⟩

/-- An exponent is taken whole, whichever sign it has, and so is one that is missing. -/
theorem IsExponent.takes (h : IsExponent exponent) : ∃ power, ∀ rest, EndsNumber rest →
    Takes (readExponent (exponent ++ rest)) power rest := by
  rcases h with rfl | ⟨mark, sign, ds, hmark, hsign, hds, rfl⟩
  · exact ⟨none, fun rest hrest => takes_no_exponent fun c hc => (hrest c hc).2.2⟩
  · refine ⟨some (sign == ['-'], ds), fun rest hrest => ?_⟩
    have hdigits := reads_digits hds hrest.endsDigits
    rw [List.cons_append, List.append_assoc]
    -- without a sign, with a plus and with a minus
    rcases hsign with rfl | rfl | rfl
    · exact takes_marked hmark (takeSign_digits hds rest) hdigits
    · exact takes_marked hmark rfl hdigits
    · exact takes_marked hmark rfl hdigits

/-- What follows the whole part of a number ends its digits. -/
theorem IsExponent.endsDigits (h : IsExponent exponent) (hrest : EndsNumber rest) :
    EndsDigits (exponent ++ rest) ∧ ∀ c ∈ (exponent ++ rest).head?, c ≠ '.' := by
  rcases h with rfl | ⟨mark, sign, ds, hmark, -, -, rfl⟩
  · exact ⟨hrest.endsDigits, fun c hc => (hrest c hc).2.1⟩
  · constructor <;> rintro c ⟨⟩ <;> rcases hmark with rfl | rfl <;> decide

/-- A fraction ends the digits before it by its point, and if it is missing, what follows does. -/
theorem IsFraction.endsDigits (h : IsFraction fraction) (hrest : EndsDigits rest) :
    EndsDigits (fraction ++ rest) := by
  rcases h with rfl | ⟨ds, -, rfl⟩
  · exact hrest
  · rintro c ⟨⟩
    rfl

/-- A number is read in the same way, whatever comes after it. -/
theorem IsMagnitude.yields (h : IsMagnitude cs) (negative : Bool) : ∃ outcome, ∀ rest,
    EndsNumber rest → Yields (readNumber negative (cs ++ rest)) outcome rest := by
  obtain ⟨whole, fraction, exponent, ⟨hwhole, hfront⟩, hfraction, hexponent, rfl⟩ := h
  obtain ⟨ds, hds⟩ := hfraction.takes
  obtain ⟨power, hpower⟩ := hexponent.takes
  refine ⟨(if ds.isEmpty && power.isNone then
    wholeNumber negative (Decimal.digitsValue whole) [] else
      decimalNumber negative whole ds power []).toOption, fun rest hrest => ?_⟩
  -- the whole part, the fraction and the exponent are taken one after the other, each ended by what
  -- comes next
  obtain ⟨hends, hpoint⟩ := hexponent.endsDigits hrest
  obtain ⟨shorter, hwhole⟩ := reads_whole hwhole hfront (hfraction.endsDigits hends)
  obtain ⟨le, hds⟩ := hds _ hends hpoint
  obtain ⟨le', hpower⟩ := hpower rest hrest
  rw [List.append_assoc, List.append_assoc, readNumber, hwhole, ok_bind]
  dsimp only
  rw [hds, ok_bind]
  dsimp only
  rw [hpower, ok_bind]
  dsimp only
  -- a number without fraction and exponent is a whole number
  split
  · rw [toOption_wholeNumber _ [] rest]
    cases wholeNumber negative (Decimal.digitsValue whole) rest <;> exact ⟨_, rfl⟩
  · rw [toOption_decimalNumber _ _ _ [] rest]
    cases decimalNumber negative whole ds power rest <;> exact ⟨_, rfl⟩

end Numbers

/-! ## Scalars -/

/-- A reader makes the same of a text wherever it stands. -/
def Settled (item : Reader Json) (text : List Char) (outcome : Option Json) : Prop :=
  ∀ ⦃sp rest : List Char⦄, Spaces sp → EndsNumber rest →
    Yields (item (sp ++ (text ++ rest))) outcome rest

section Scalars

variable {nested : Option (Reader Json)} {item : Reader Json} {cs more rest : List Char} {c : Char}
  {outcome : Option Json}

/-- After a minus there is the outcome of the magnitude. -/
theorem yields_negative (h : skipSpaces cs = '-' :: more)
    (hread : Yields (readNumber true more) outcome rest) :
    Yields (readValueWith nested cs) outcome rest := by
  obtain ⟨le, heq⟩ := readValueWith_negative nested h
  rw [heq]
  exact hread.within le

/-- At a digit there is the outcome of the number. -/
theorem yields_positive (h : skipSpaces cs = c :: more) (hc : c.isDigit = true)
    (hread : Yields (readNumber false (c :: more)) outcome rest) :
    Yields (readValueWith nested cs) outcome rest := by
  obtain ⟨le, heq⟩ := readValueWith_positive nested h hc
  rw [heq]
  exact hread.within le

/-- A string has an outcome unless half of a surrogate pair is among its marks. -/
theorem yields_quoted {marks : List Mark} (hvalid : ∀ mark ∈ marks, mark.Valid)
    (h : skipSpaces cs = '"' :: (spelled marks ++ '"' :: rest)) :
    Yields (readValueWith nested cs) (((decode? marks).map String.ofList).map .string) rest := by
  obtain ⟨shorter, heq⟩ := readValueWith_quote nested h
  rw [heq]
  exact (yields_string hvalid rest).map fun value shorter => ⟨_, rfl⟩

/-- An array has the outcome of its items. -/
theorem yields_array (h : skipSpaces cs = '[' :: more)
    (hread : Yields (readItems item more) outcome rest) :
    Yields (readValueWith (some item) cs) outcome rest := by
  obtain ⟨le, heq⟩ := readValueWith_bracket item h
  rw [heq]
  exact hread.within le

/-- An object has the outcome of its members. -/
theorem yields_object (h : skipSpaces cs = '\x7b' :: more)
    (hread : Yields (readMembers item more) outcome rest) :
    Yields (readValueWith (some item) cs) outcome rest := by
  obtain ⟨le, heq⟩ := readValueWith_brace item h
  rw [heq]
  exact hread.within le

/-- A word is a value that fits, so it is read back wherever it stands. -/
theorem IsWord.settled (h : IsWord cs) :
    ∃ outcome, ∀ nested, Settled (readValueWith nested) cs outcome := by
  have hvalue : ∃ value, cs = scalar value ∧ Fits 0 value := by
    rcases h with rfl | rfl | rfl
    · exact ⟨.null, rfl, by rw [Fits]; trivial⟩
    · exact ⟨.bool true, rfl, by rw [Fits]; trivial⟩
    · exact ⟨.bool false, rfl, by rw [Fits]; trivial⟩
  obtain ⟨value, rfl, hfits⟩ := hvalue
  refine ⟨some value, fun nested _ _ hsp hrest => reads_scalar ?_ ?_ hfits hsp hrest⟩
  · rintro items rfl
    exact hfits
  · rintro members rfl
    exact hfits

/-- A number has one outcome. It is a value, or none if its magnitude is out of range. -/
theorem IsNumber.settled (h : IsNumber cs) :
    ∃ outcome, ∀ nested, Settled (readValueWith nested) cs outcome := by
  obtain ⟨negative, magnitude, hmagnitude, rfl⟩ := h
  obtain ⟨outcome, hyields⟩ := hmagnitude.yields negative
  refine ⟨outcome, fun nested sp rest hsp hrest => ?_⟩
  have hread := hyields rest hrest
  cases negative with
  | true => exact yields_negative (skipSpaces_append_cons hsp rfl) hread
  | false =>
    obtain ⟨d, more, rfl, hd⟩ := hmagnitude.starts
    exact yields_positive (skipSpaces_append_cons hsp (isSpace_of_isDigit hd)) hd hread

/-- A string has one outcome, whatever stands around it. -/
theorem IsString.settled (h : IsString cs) :
    ∃ outcome, ∀ nested, Settled (readValueWith nested) cs outcome := by
  obtain ⟨marks, hvalid, rfl⟩ := h
  refine ⟨_, fun nested sp rest hsp _ => yields_quoted hvalid ?_⟩
  rw [skipSpaces_append hsp, List.cons_append, List.append_assoc, List.singleton_append,
    skipSpaces_cons rfl]

/-- A scalar has an outcome, whatever is nested elsewhere. -/
theorem settled_scalar (h : IsScalar cs) :
    ∃ outcome, ∀ nested, Settled (readValueWith nested) cs outcome := by
  rcases h with hword | hnumber | hstring
  · exact hword.settled
  · exact hnumber.settled
  · exact hstring.settled

end Scalars

/-! ## Arrays and objects

The outcome of a nested text is a parameter here, `value?`; it is only known to be what the reader
of nested values makes of the texts at hand.
-/

section Nested

variable {item : Reader Json} {text rest whole : List Char} {value? : List Char → Option Json}

/-- What is listed after a part ends a number at its end. -/
theorem Listed.endsNumber {close : Char} {parts : List (List Char)} (h : Listed close parts text)
    (hclose : close.isDigit = false ∧ close ≠ '.' ∧ close ≠ 'e' ∧ close ≠ 'E')
    (rest : List Char) : EndsNumber (text ++ rest) := by
  cases parts with
  | nil =>
    obtain ⟨sp, hsp, rfl⟩ := h
    rw [List.append_assoc]
    exact endsNumber_spaces hsp (endsNumber_cons hclose _)
  | cons part parts =>
    obtain ⟨sp, sp', more, hsp, -, -, rfl⟩ := h
    rw [List.append_assoc]
    exact endsNumber_spaces hsp (endsNumber_cons (by decide) _)

/-- What is made of a list, by its first item. -/
theorem map_mapM_cons {α β γ : Type} (f : α → Option β) (g : List β → γ) (a : α) (l : List α) :
    ((a :: l).mapM f).map g = (f a).bind fun b => (l.mapM f).map fun bs => g (b :: bs) := by
  rw [List.mapM_cons]
  cases f a <;> cases l.mapM f <;> rfl

/-- The items that follow have the outcome of all of them together, added to what is done. Induction
on the items; the first one that has no value ends the reading. -/
theorem yields_itemsFrom (done : List Json) {items : List (List Char)}
    (hitems : ∀ i ∈ items, Settled item i (value? i)) (hstarts : ∀ i ∈ items, StartsValue i)
    (hlisted : Listed ']' items text) (h : (text ++ rest).length ≤ whole.length) :
    Yields (readItemsFrom item done (text ++ rest) h)
      ((items.mapM value?).map fun items => .array (done.reverse ++ items)) rest := by
  induction items generalizing done text with
  | nil =>
    obtain ⟨sp, hsp, rfl⟩ := hlisted
    have hread : Reads (readItemsFrom item done (sp ++ [']'] ++ rest) h)
        (.array done.reverse) rest := by
      refine readItemsFrom_close ?_ h
      rw [List.append_assoc]
      exact skipSpaces_append_cons hsp rfl
    -- the closing bracket: no more items, and those that are done are the array
    rwa [← List.append_nil done.reverse] at hread
  | cons first items ih =>
    obtain ⟨sp, sp', more, hsp, hsp', hmore, rfl⟩ := hlisted
    obtain ⟨hfirst, hitems⟩ := List.forall_mem_cons.1 hitems
    obtain ⟨hstart, hstarts⟩ := List.forall_mem_cons.1 hstarts
    obtain ⟨c, text', hskip, hc⟩ := hstart.skip hsp' (more ++ rest)
    simp only [List.cons_append, List.append_assoc] at h ⊢
    obtain ⟨h', heq⟩ := readItemsFrom_next done (skipSpaces_append_cons hsp rfl) hskip hc h
    -- no outcome of the first item leaves none for the array; else its value joins those read
    rw [heq, map_mapM_cons]
    refine (hfirst hsp' (hmore.endsNumber (by decide) rest)).bind fun value shorter => ?_
    have hrest := ih (value :: done) hitems hstarts hmore (h' ⟨value, _, shorter⟩)
    simpa only [List.reverse_cons, List.append_assoc, List.singleton_append] using hrest

/-- The items of an array are read after its opening bracket, or one of them has no value. -/
theorem yields_items {items : List (List Char)}
    (hitems : ∀ i ∈ items, Settled item i (value? i)) (hstarts : ∀ i ∈ items, StartsValue i)
    (h : Enclosed '[' ']' items ('[' :: text)) :
    Yields (readItems item (text ++ rest)) ((items.mapM value?).map .array) rest := by
  cases items with
  | nil =>
    obtain ⟨sp, hsp, heq⟩ := h
    obtain rfl := (List.cons.inj heq).2
    have hread : Reads (readItems item (sp ++ [']'] ++ rest)) (.array []) rest := by
      refine readItems_close ?_
      rw [List.append_assoc]
      exact skipSpaces_append_cons hsp rfl
    exact hread
  | cons first items =>
    obtain ⟨sp, more, hsp, hmore, heq⟩ := h
    obtain rfl := (List.cons.inj heq).2
    obtain ⟨hfirst, hitems⟩ := List.forall_mem_cons.1 hitems
    obtain ⟨hstart, hstarts⟩ := List.forall_mem_cons.1 hstarts
    -- an item cannot start with the closing bracket, so the array is not taken for an empty one
    obtain ⟨c, text', hskip, hc⟩ := hstart.skip hsp (more ++ rest)
    rw [List.append_assoc, List.append_assoc, readItems_first item hskip hc, map_mapM_cons]
    exact (hfirst hsp (hmore.endsNumber (by decide) rest)).bind fun value shorter =>
      yields_itemsFrom [value] hitems hstarts hmore shorter.le

/-- What a member is read as, by what its name and its value are read as. -/
def Member.outcome (value? : List Char → Option Json) (member : Member) :
    Option (String × Json) := do
  let name ← decode? member.name
  let value ← value? member.value
  return (String.ofList name, value)

/-- A member is read from its quotation mark on. It has an outcome if its name and its value have
one. -/
theorem yields_member {member : Member} (hname : ∀ mark ∈ member.name, mark.Valid)
    (hvalue : Settled item member.value (value? member.value)) (htext : member.Text text)
    (hrest : EndsNumber rest) : ∃ more, text ++ rest = '"' :: more ∧
      Yields (readMember item more) (member.outcome value?) rest := by
  obtain ⟨sp, sp', hsp, hsp', rfl⟩ := htext
  refine ⟨spelled member.name ++ '"' :: (sp ++ ':' :: (sp' ++ (member.value ++ rest))),
    by simp, ?_⟩
  have hread := yields_string hname (sp ++ ':' :: (sp' ++ (member.value ++ rest)))
  have hcolon : skipSpaces (sp ++ ':' :: (sp' ++ (member.value ++ rest))) =
      ':' :: (sp' ++ (member.value ++ rest)) := skipSpaces_append_cons hsp rfl
  unfold Member.outcome
  cases hdecode : decode? member.name with
  | none =>
    -- half of a surrogate pair in the name
    rw [hdecode] at hread
    obtain ⟨fault, hread⟩ := hread
    exact ⟨fault, by rw [readMember, hread]; rfl⟩
  | some name =>
    rw [hdecode] at hread
    -- the name is read, so the outcome is that of the value behind the colon
    obtain ⟨shorter, heq⟩ := readMember_colon item hread hcolon
    rw [heq]
    exact (hvalue hsp' hrest).bind fun value shorter => ⟨_, rfl⟩

/-- The members that follow have the outcome of all of them together. Induction on the members with
their texts. -/
theorem yields_membersFrom (done : List (String × Json)) {members : List Member}
    {texts : List (List Char)}
    (hmembers : ∀ m ∈ members, m.Valid fun cs => Settled item cs (value? cs))
    (htexts : List.Forall₂ Member.Text members texts) (hlisted : Listed '\x7d' texts text)
    (h : (text ++ rest).length ≤ whole.length) :
    Yields (readMembersFrom item done (text ++ rest) h)
      ((members.mapM (Member.outcome value?)).map fun members =>
        .object (done.reverse ++ members)) rest := by
  induction htexts generalizing done text with
  | nil =>
    obtain ⟨sp, hsp, rfl⟩ := hlisted
    have hread : Reads (readMembersFrom item done (sp ++ ['\x7d'] ++ rest) h)
        (.object done.reverse) rest := by
      refine readMembersFrom_close ?_ h
      rw [List.append_assoc]
      exact skipSpaces_append_cons hsp rfl
    rwa [← List.append_nil done.reverse] at hread
  | @cons first part members texts hfirst htexts ih =>
    obtain ⟨sp, sp', more, hsp, hsp', hmore, rfl⟩ := hlisted
    obtain ⟨hvalid, hmembers⟩ := List.forall_mem_cons.1 hmembers
    obtain ⟨more', hquote, hread⟩ := yields_member hvalid.name hvalid.value hfirst
      (hmore.endsNumber (by decide) rest)
    simp only [List.cons_append, List.append_assoc] at h ⊢
    -- the next member starts with the quotation mark of its name
    have hskip : skipSpaces (sp' ++ (part ++ (more ++ rest))) = '"' :: more' := by
      rw [hquote]
      exact skipSpaces_append_cons hsp' rfl
    obtain ⟨h', heq⟩ := readMembersFrom_next done (skipSpaces_append_cons hsp rfl) hskip h
    rw [heq, map_mapM_cons]
    refine hread.bind fun member shorter => ?_
    have hrest := ih (member :: done) hmembers hmore (h' ⟨member, _, shorter⟩)
    simpa only [List.reverse_cons, List.append_assoc, List.singleton_append] using hrest

/-- The members of an object are read after its opening brace, or one of them has no value. -/
theorem yields_members {members : List Member} {texts : List (List Char)}
    (hmembers : ∀ m ∈ members, m.Valid fun cs => Settled item cs (value? cs))
    (htexts : List.Forall₂ Member.Text members texts)
    (h : Enclosed '\x7b' '\x7d' texts ('\x7b' :: text)) :
    Yields (readMembers item (text ++ rest))
      ((members.mapM (Member.outcome value?)).map .object) rest := by
  cases htexts with
  | nil =>
    obtain ⟨sp, hsp, heq⟩ := h
    obtain rfl := (List.cons.inj heq).2
    have hread : Reads (readMembers item (sp ++ ['\x7d'] ++ rest)) (.object []) rest := by
      refine readMembers_close ?_
      rw [List.append_assoc]
      exact skipSpaces_append_cons hsp rfl
    exact hread
  | @cons first part members texts hfirst htexts =>
    obtain ⟨sp, more, hsp, hmore, heq⟩ := h
    obtain rfl := (List.cons.inj heq).2
    obtain ⟨hvalid, hmembers⟩ := List.forall_mem_cons.1 hmembers
    obtain ⟨more', hquote, hread⟩ := yields_member hvalid.name hvalid.value hfirst
      (hmore.endsNumber (by decide) rest)
    -- a quote follows the brace, so there is a first member
    have hskip : skipSpaces (sp ++ (part ++ (more ++ rest))) = '"' :: more' := by
      rw [hquote]
      exact skipSpaces_append_cons hsp rfl
    obtain ⟨h', heq⟩ := readMembers_first item hskip
    rw [List.append_assoc, List.append_assoc, heq, map_mapM_cons]
    exact hread.bind fun member shorter =>
      yields_membersFrom [member] hmembers htexts hmore (h' ⟨member, _, shorter⟩)

end Nested

/-! ## Values -/

/-- The value that a text stands for, if it has one. -/
def valueOf? (cs : List Char) : Option Json := (read cs).toOption

section Values

variable {d depth : ℕ} {cs : List Char} {outcome : Option Json}

/-- A text stands for a value if it is read as that value and nothing is left. -/
theorem valueOf?_eq_some_iff {value : Json} : valueOf? cs = some value ↔ read cs = .ok value := by
  unfold valueOf?
  cases read cs with
  | ok value' => exact ⟨fun h => by cases h; rfl, fun h => by cases h; rfl⟩
  | error fault => exact ⟨nofun, nofun⟩

/-- A settled text stands for its outcome. -/
theorem valueOf?_eq (h : Settled (readValue deepest) cs outcome) : valueOf? cs = outcome := by
  -- nothing stands before the text and nothing after it
  have hread : Yields (readValue deepest ([] ++ (cs ++ []))) outcome [] := h spaces_nil nofun
  rw [List.nil_append, List.append_nil] at hread
  unfold valueOf? read readFirst
  cases outcome with
  | some value =>
    obtain ⟨shorter, hread⟩ := hread
    rw [hread]
    rfl
  | none =>
    obtain ⟨fault, hread⟩ := hread
    rw [hread]
    rfl

/-- An array is settled if its items are. -/
theorem settled_array {item : Reader Json} {value? : List Char → Option Json}
    {items : List (List Char)} (hitems : ∀ i ∈ items, Settled item i (value? i))
    (hstarts : ∀ i ∈ items, StartsValue i) (h : Enclosed '[' ']' items cs) :
    Settled (readValueWith (some item)) cs ((items.mapM value?).map .array) := by
  intro sp rest hsp _
  obtain ⟨text, rfl⟩ := h.starts
  exact yields_array (skipSpaces_append_cons hsp rfl) (yields_items hitems hstarts h)

/-- An object is settled if its members are. -/
theorem settled_object {item : Reader Json} {value? : List Char → Option Json}
    {members : List Member}
    (hmembers : ∀ m ∈ members, m.Valid fun cs => Settled item cs (value? cs))
    (h : ObjectText members cs) : Settled (readValueWith (some item)) cs
      ((members.mapM (Member.outcome value?)).map .object) := by
  intro sp rest hsp _
  obtain ⟨texts, htexts, henclosed⟩ := h
  obtain ⟨text, rfl⟩ := henclosed.starts
  exact yields_object (skipSpaces_append_cons hsp rfl) (yields_members hmembers htexts henclosed)

/-- The reader of values is one and the same at every depth, but for the reader of what is nested.
-/
theorem exists_nested (depth : ℕ) : ∃ nested, readValue depth = readValueWith nested := by
  cases depth with
  | zero => exact ⟨none, rfl⟩
  | succ depth => exact ⟨some (readValue depth), rfl⟩

/-- A text with one outcome at every depth that allows for it stands for that outcome. -/
theorem settled_valueOf? (outcome : Option Json) (hd : d ≤ depth) (hdepth : depth ≤ deepest)
    (h : ∀ depth, d ≤ depth → depth ≤ deepest → Settled (readValue depth) cs outcome) :
    Settled (readValue depth) cs (valueOf? cs) := by
  rw [valueOf?_eq (h deepest (hd.trans hdepth) le_rfl)]
  exact h depth hd hdepth

/-- A scalar is read at every depth, so it stands for one value at all of them. -/
theorem IsScalar.settled (h : IsScalar cs) (hdepth : depth ≤ deepest) :
    Settled (readValue depth) cs (valueOf? cs) := by
  obtain ⟨outcome, hsettled⟩ := settled_scalar h
  have hall : ∀ depth, 0 ≤ depth → depth ≤ deepest → Settled (readValue depth) cs outcome := by
    intro depth _ _
    obtain ⟨nested, heq⟩ := exists_nested depth
    rw [heq]
    exact hsettled nested
  exact settled_valueOf? outcome (Nat.zero_le depth) hdepth hall

/-- A text stands for the same value wherever it is. -/
theorem IsJson.settled (h : IsJson d cs) (hd : d ≤ depth) (hdepth : depth ≤ deepest) :
    Settled (readValue depth) cs (valueOf? cs) := by
  induction d generalizing depth cs with
  | zero => exact IsScalar.settled h hdepth
  | succ d ih =>
    rcases h with hscalar | ⟨items, henclosed, hitems⟩ | ⟨members, htext, hmembers⟩
    · exact hscalar.settled hdepth
    -- one level is spent on the brackets, so the parts are read at a depth that is left for them
    · refine settled_valueOf? ((items.mapM valueOf?).map .array) hd hdepth
        fun depth hd hdepth => ?_
      obtain ⟨depth, rfl⟩ := Nat.exists_eq_add_one_of_ne_zero (Nat.ne_zero_of_lt hd)
      exact settled_array (fun i hi => ih (hitems i hi) (Nat.le_of_succ_le_succ hd)
        (Nat.le_of_succ_le hdepth)) (fun i hi => (hitems i hi).startsValue) henclosed
    · refine settled_valueOf? ((members.mapM (Member.outcome valueOf?)).map .object) hd hdepth
        fun depth hd hdepth => ?_
      obtain ⟨depth, rfl⟩ := Nat.exists_eq_add_one_of_ne_zero (Nat.ne_zero_of_lt hd)
      exact settled_object (fun m hm => ⟨(hmembers m hm).name, ih (hmembers m hm).value
        (Nat.le_of_succ_le_succ hd) (Nat.le_of_succ_le hdepth)⟩) htext

/-- An array has a value if all its items have one. -/
theorem valueOf?_array {items : List (List Char)} (hitems : ∀ i ∈ items, IsJson d i)
    (hd : d < deepest) (h : Enclosed '[' ']' items cs) :
    valueOf? cs = (items.mapM valueOf?).map .array :=
  valueOf?_eq <| settled_array
    (fun i hi => (hitems i hi).settled (Nat.le_of_lt_succ hd) (by decide))
    (fun i hi => (hitems i hi).startsValue) h

/-- An object has a value if the names and the values of all its members have one. -/
theorem valueOf?_object {members : List Member} (hmembers : ∀ m ∈ members, m.Valid (IsJson d))
    (hd : d < deepest) (h : ObjectText members cs) :
    valueOf? cs = (members.mapM (Member.outcome valueOf?)).map .object :=
  valueOf?_eq <| settled_object (fun m hm => ⟨(hmembers m hm).name,
    (hmembers m hm).value.settled (Nat.le_of_lt_succ hd) (by decide)⟩) h

end Values

end SpeechTranscript.Json
