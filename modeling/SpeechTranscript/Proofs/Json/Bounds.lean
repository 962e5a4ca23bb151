import SpeechTranscript.Proofs.Json.Form
import SpeechTranscript.Proofs.Json.Numeral
import SpeechTranscript.Refusal

/-!
# What is read can be written

Whatever text a value is read from, its numbers are finite, its integers have 64 bits, and it is not
nested deeper than the reader goes. So it has a text that tells all of it.

* `fits_readNumber`: a number.
* `fits_readValue`: a value, by the depth that is left.
* `fits_of_read`: the value of a whole text.
-/

namespace SpeechTranscript.Json

/-- Whatever a reader gives has a property. -/
def Gives {α : Type} (reader : Reader α) (P : α → Prop) : Prop :=
  ∀ cs p, reader cs = .ok p → P p.value

/-! ## Numbers -/

section Numbers

variable {negative : Bool} {cs rest : List Char} {value : Json}

/-- A double is kept only if it is finite. -/
theorem fits_finiteFloat {x : Float} (depth : ℕ) (h : finiteFloat x rest = .ok value) :
    Fits depth value := by
  unfold finiteFloat at h
  split at h
  · rename_i hfinite
    cases h
    rwa [Fits]
  · cases h

/-- A whole number is kept as an integer while it has 64 bits, and as a double beyond. -/
theorem fits_wholeNumber {n : ℕ} (depth : ℕ) (h : wholeNumber negative n rest = .ok value) :
    Fits depth value := by
  unfold wholeNumber at h
  split at h
  · split at h
    · rename_i hroom
      cases h
      rw [Fits]
      omega
    · -- no room for it among the integers of either sign
      exact fits_finiteFloat depth h
  · split at h
    · rename_i hroom
      cases h
      rw [Fits]
      omega
    · exact fits_finiteFloat depth h

/-- A number with a fraction or an exponent is a finite double. -/
theorem fits_decimalNumber {whole fraction : List Char} {exponent : Option (Bool × List Char)}
    (depth : ℕ) (h : decimalNumber negative whole fraction exponent rest = .ok value) :
    Fits depth value := by
  unfold decimalNumber at h
  split at h
  · exact fits_finiteFloat depth h
  · split at h
    · split at h
      · cases h
        rw [Fits]
        -- digits that are all zero give one of the two zeros
        cases negative <;> decide +kernel
      · cases h
    · exact fits_finiteFloat depth h

/-- A number that is read can be written. -/
theorem fits_readNumber (depth : ℕ) : Gives (readNumber negative) (Fits depth) := by
  intro cs p h
  obtain ⟨whole, -, h⟩ := bind_eq_ok_iff.1 h
  obtain ⟨fraction, -, h⟩ := bind_eq_ok_iff.1 h
  obtain ⟨exponent, -, h⟩ := bind_eq_ok_iff.1 h
  dsimp only at h
  split at h
  · obtain ⟨value, hvalue, h⟩ := bind_eq_ok_iff.1 h
    cases h
    exact fits_wholeNumber depth hvalue
  · obtain ⟨value, hvalue, h⟩ := bind_eq_ok_iff.1 h
    cases h
    exact fits_decimalNumber depth hvalue

end Numbers

/-! ## Arrays and objects -/

section Nested

variable {item : Reader Json} {P : Json → Prop} {cs whole : List Char}

/-- What holds of every item that is given holds of all that are gathered. -/
theorem forall_of_readItemsFrom (hitem : Gives item P) {done : List Json}
    (hdone : ∀ i ∈ done, P i) (h : cs.length ≤ whole.length) {p : Parsed Json whole}
    (hread : readItemsFrom item done cs h = .ok p) :
    ∃ items, p.value = .array items ∧ ∀ i ∈ items, P i := by
  -- the items read so far carry the property through the loop
  fun_induction readItemsFrom item done cs h with
  | case2 done =>
    cases hread
    exact ⟨done.reverse, rfl, fun i hi => hdone i (List.mem_reverse.1 hi)⟩
  | case6 done cs h rest hcomma next hnext _ _ _ ih =>
    exact ih (List.forall_mem_cons.2 ⟨hitem _ _ hnext, hdone⟩) hread
  | _ => cases hread

/-- The items of an array have the property of what the reader of items gives. -/
theorem forall_of_readItems (hitem : Gives item P) {p : Parsed Json cs}
    (hread : readItems item cs = .ok p) : ∃ items, p.value = .array items ∧ ∀ i ∈ items, P i := by
  unfold readItems at hread
  split at hread
  · cases hread
  · cases hread
    exact ⟨[], rfl, List.forall_mem_nil _⟩
  · split at hread
    · cases hread
    · rename_i first hfirst
      exact forall_of_readItemsFrom hitem
        (List.forall_mem_singleton.2 (hitem _ _ hfirst)) _ hread

/-- A member has the property of its value. -/
theorem gives_readMember (hitem : Gives item P) :
    Gives (readMember item) fun member => P member.2 := by
  intro cs p h
  obtain ⟨name, -, h⟩ := bind_eq_ok_iff.1 h
  split at h
  · cases h
  · obtain ⟨value, hvalue, h⟩ := bind_eq_ok_iff.1 h
    cases h
    exact hitem _ _ hvalue
  · cases h

/-- The same loop over members. What is gathered has the property of the values. -/
theorem forall_of_readMembersFrom (hitem : Gives item P) {done : List (String × Json)}
    (hdone : ∀ m ∈ done, P m.2) (h : cs.length ≤ whole.length) {p : Parsed Json whole}
    (hread : readMembersFrom item done cs h = .ok p) :
    ∃ members, p.value = .object members ∧ ∀ m ∈ members, P m.2 := by
  fun_induction readMembersFrom item done cs h with
  | case2 done =>
    cases hread
    exact ⟨done.reverse, rfl, fun m hm => hdone m (List.mem_reverse.1 hm)⟩
  | case5 done cs h rest hcomma more hquote next hnext _ ih =>
    exact ih (List.forall_mem_cons.2 ⟨gives_readMember hitem _ _ hnext, hdone⟩) hread
  | _ => cases hread

/-- The members of an object have the property of what the reader of values gives. -/
theorem forall_of_readMembers (hitem : Gives item P) {p : Parsed Json cs}
    (hread : readMembers item cs = .ok p) :
    ∃ members, p.value = .object members ∧ ∀ m ∈ members, P m.2 := by
  unfold readMembers at hread
  split at hread
  · cases hread
  · cases hread
    exact ⟨[], rfl, List.forall_mem_nil _⟩
  · split at hread
    · cases hread
    · rename_i first hfirst
      exact forall_of_readMembersFrom hitem
        (List.forall_mem_singleton.2 (gives_readMember hitem _ _ hfirst)) _ hread
  · cases hread

end Nested

/-! ## Values -/

/-- A word that stands for a value gives just this value. -/
theorem fits_readWord {word : String} {value : Json} {cs rest : List Char} {depth : ℕ}
    (hvalue : Fits depth value) (h : rest.length < cs.length) {p : Parsed Json cs}
    (hread : readWord word value h = .ok p) : Fits depth p.value := by
  obtain ⟨t, -, hread⟩ := bind_eq_ok_iff.1 hread
  cases hread
  exact hvalue

/-- What is read fits if what is nested in it does. -/
theorem fits_readValueWith {nested : Option (Reader Json)} {depth : ℕ}
    (hnested : ∀ item, nested = some item → ∃ d, depth = d + 1 ∧ Gives item (Fits d)) :
    Gives (readValueWith nested) (Fits depth) := by
  intro cs p h
  unfold readValueWith at h
  split at h
  · cases h
  · rename_i c rest here
    -- one case for each first character, in the order of the reader
    dsimp only at h
    split at h
    · exact fits_readWord (by rw [Fits]; trivial) _ h
    split at h
    · exact fits_readWord (by rw [Fits]; trivial) _ h
    split at h
    · exact fits_readWord (by rw [Fits]; trivial) _ h
    split at h
    · obtain ⟨n, hnumber, h⟩ := bind_eq_ok_iff.1 h
      cases h
      exact fits_readNumber depth _ n hnumber
    split at h
    · obtain ⟨n, hnumber, h⟩ := bind_eq_ok_iff.1 h
      cases h
      exact fits_readNumber depth _ n hnumber
    split at h
    · obtain ⟨s, -, h⟩ := bind_eq_ok_iff.1 h
      cases h
      rw [Fits]
      trivial
    split at h
    · split at h
      · cases h
      · rename_i item
        -- there is a reader for what is nested only if there is a level left
        obtain ⟨d, rfl, hitem⟩ := hnested item rfl
        split at h
        · obtain ⟨inner, hinner, h⟩ := bind_eq_ok_iff.1 h
          cases h
          obtain ⟨items, hvalue, hfits⟩ := forall_of_readItems hitem hinner
          show Fits (d + 1) inner.value
          rw [hvalue, Fits]
          exact hfits
        · obtain ⟨inner, hinner, h⟩ := bind_eq_ok_iff.1 h
          cases h
          obtain ⟨members, hvalue, hfits⟩ := forall_of_readMembers hitem hinner
          show Fits (d + 1) inner.value
          rw [hvalue, Fits]
          exact hfits
    · cases h

/-- A value that is read with some depth left is not nested deeper than that. -/
theorem fits_readValue (depth : ℕ) : Gives (readValue depth) (Fits depth) := by
  induction depth with
  | zero => exact fits_readValueWith nofun
  | succ depth ih =>
    -- what is nested is read with one level less
    refine fits_readValueWith fun item hitem => ⟨depth, rfl, ?_⟩
    cases hitem
    exact ih

/-- What a text is read as can be written. -/
theorem fits_of_read {text : List Char} {value : Json} (h : read text = .ok value) :
    Fits deepest value := by
  obtain ⟨first, hfirst, h⟩ := bind_eq_ok_iff.1 h
  obtain ⟨p, hp, hfirst⟩ := bind_eq_ok_iff.1 hfirst
  obtain ⟨-, -, h⟩ := bind_eq_ok_iff.1 h
  cases hfirst
  cases h
  exact fits_readValue deepest _ _ hp

end SpeechTranscript.Json
