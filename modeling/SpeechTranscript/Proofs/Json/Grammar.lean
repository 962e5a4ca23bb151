import SpeechTranscript.Proofs.Json.Reading
import SpeechTranscript.Proofs.Json.Spelling

/-!
# JSON texts

What JSON allows, told without a reader: words, numbers with a fraction and an exponent of any size,
strings in every spelling, arrays and objects with spaces between their parts. Not every such text
has a value here: a number may be out of range, or half of a surrogate pair may stand alone.

* `IsJson`: the texts of at most so many levels.
* `IsJson.startsValue`: how such a text can start.
-/

namespace SpeechTranscript.Json

/-! ## Words, numbers and strings -/

def IsWord (cs : List Char) : Prop :=
  cs = "null".toList ∨ cs = "true".toList ∨ cs = "false".toList

/-- A point and the digits behind it, or nothing. -/
def IsFraction (cs : List Char) : Prop := cs = [] ∨ ∃ ds, IsDigits ds ∧ cs = '.' :: ds

/-- The mark of an exponent, its sign if it has one and its digits, or nothing. -/
def IsExponent (cs : List Char) : Prop :=
  cs = [] ∨ ∃ mark sign ds, (mark = 'e' ∨ mark = 'E') ∧ (sign = [] ∨ sign = ['+'] ∨ sign = ['-']) ∧
    IsDigits ds ∧ cs = mark :: (sign ++ ds)

/-- A number without its sign. -/
def IsMagnitude (cs : List Char) : Prop :=
  ∃ whole fraction exponent, (IsDigits whole ∧ NoZeroInFront whole) ∧ IsFraction fraction ∧
    IsExponent exponent ∧ cs = whole ++ (fraction ++ exponent)

def IsNumber (cs : List Char) : Prop :=
  ∃ (negative : Bool) (magnitude : List Char), IsMagnitude magnitude ∧
    cs = (if negative then ['-'] else []) ++ magnitude

def IsString (cs : List Char) : Prop :=
  ∃ marks, (∀ mark ∈ marks, mark.Valid) ∧ cs = '"' :: (spelled marks ++ ['"'])

def IsScalar (cs : List Char) : Prop := IsWord cs ∨ IsNumber cs ∨ IsString cs

/-! ## Arrays and objects -/

/-- Parts, each after a comma, with the bracket that closes them. -/
def Listed (close : Char) : List (List Char) → List Char → Prop
  | [], cs => ∃ sp, Spaces sp ∧ cs = sp ++ [close]
  | part :: parts, cs => ∃ sp sp' more, Spaces sp ∧ Spaces sp' ∧ Listed close parts more ∧
      cs = sp ++ ',' :: (sp' ++ (part ++ more))

/-- Parts with commas between, in brackets. -/
def Enclosed (opening close : Char) : List (List Char) → List Char → Prop
  | [], cs => ∃ sp, Spaces sp ∧ cs = opening :: (sp ++ [close])
  | part :: parts, cs => ∃ sp more, Spaces sp ∧ Listed close parts more ∧
      cs = opening :: (sp ++ (part ++ more))

/-- A text of an array of such items. -/
def ArrayText (IsItem : List Char → Prop) (cs : List Char) : Prop :=
  ∃ items, Enclosed '[' ']' items cs ∧ ∀ item ∈ items, IsItem item

/-- A member of an object as it is written: its name by the marks between its quotes, and the text
of its value. -/
structure Member where
  name : List Mark
  value : List Char

/-- The name of a member may be spelled in this way, and its value is such a text. -/
structure Member.Valid (IsValue : List Char → Prop) (member : Member) : Prop where
  name : ∀ mark ∈ member.name, mark.Valid
  value : IsValue member.value

/-- A text of a member. -/
def Member.Text (member : Member) (cs : List Char) : Prop :=
  ∃ sp sp', Spaces sp ∧ Spaces sp' ∧
    cs = '"' :: (spelled member.name ++ '"' :: (sp ++ ':' :: (sp' ++ member.value)))

/-- A text of an object with these members. -/
def ObjectText (members : List Member) (cs : List Char) : Prop :=
  ∃ texts, List.Forall₂ Member.Text members texts ∧ Enclosed '\x7b' '\x7d' texts cs

/-- The texts that JSON allows, with at most `depth` levels of arrays and objects. -/
def IsJson : (depth : ℕ) → List Char → Prop
  | 0, cs => IsScalar cs
  | depth + 1, cs => IsScalar cs ∨ ArrayText (IsJson depth) cs ∨
      ∃ members, ObjectText members cs ∧ ∀ member ∈ members, member.Valid (IsJson depth)

theorem IsScalar.isJson {cs : List Char} (h : IsScalar cs) (depth : ℕ) : IsJson depth cs := by
  cases depth with
  | zero => exact h
  | succ depth => exact .inl h

/-! ## How texts start -/

section Starts

variable {cs : List Char} {depth : ℕ}

theorem IsMagnitude.starts (h : IsMagnitude cs) : ∃ d more, cs = d :: more ∧ d.isDigit = true := by
  obtain ⟨whole, fraction, exponent, ⟨hdigits, -⟩, -, -, rfl⟩ := h
  obtain ⟨d, ds, rfl⟩ := List.exists_cons_of_ne_nil hdigits.1
  exact ⟨d, _, rfl, hdigits.2 d List.mem_cons_self⟩

/-- A word, a number and a string start like values. -/
theorem IsScalar.startsValue (h : IsScalar cs) : StartsValue cs := by
  rcases h with hword | ⟨negative, magnitude, hmagnitude, rfl⟩ | ⟨marks, -, rfl⟩
  · rcases hword with rfl | rfl | rfl
    · exact ⟨'n', _, rfl, rfl, by decide⟩
    · exact ⟨'t', _, rfl, rfl, by decide⟩
    · exact ⟨'f', _, rfl, rfl, by decide⟩
  · exact startsValue_signed negative hmagnitude.starts
  · exact ⟨'"', _, rfl, rfl, by decide⟩

/-- Parts in brackets start with the opening bracket. -/
theorem Enclosed.starts {opening close : Char} {parts : List (List Char)}
    (h : Enclosed opening close parts cs) : ∃ more, cs = opening :: more := by
  cases parts with
  | nil =>
    obtain ⟨sp, -, rfl⟩ := h
    exact ⟨_, rfl⟩
  | cons part parts =>
    obtain ⟨sp, more, -, -, rfl⟩ := h
    exact ⟨_, rfl⟩

/-- A text starts with a character that is neither a space nor closes an array. -/
theorem IsJson.startsValue (h : IsJson depth cs) : StartsValue cs := by
  cases depth with
  | zero => exact IsScalar.startsValue h
  | succ depth =>
    rcases h with hscalar | ⟨items, henclosed, -⟩ | ⟨members, ⟨texts, -, henclosed⟩, -⟩
    · exact hscalar.startsValue
    · obtain ⟨more, rfl⟩ := henclosed.starts
      exact ⟨'[', more, rfl, rfl, by decide⟩
    · obtain ⟨more, rfl⟩ := henclosed.starts
      exact ⟨'\x7b', more, rfl, rfl, by decide⟩

end Starts

end SpeechTranscript.Json
