import Mathlib
import SpeechTranscript.Json.Reader
import SpeechTranscript.Json.Writer

/-!
# Texts of values

A value has many texts: one on a line, one for each indent over several lines, and others with more
spaces between their parts. `Form` says what they have in common, so that reading them back is one
induction, whatever writer they come from.

* `Fits`: the values that have a text which tells all of them.
* `form_oneLine`, `form_spread`: both writers write a text of the value.
-/

namespace SpeechTranscript.Json

/-! ## Spaces -/

/-- Nothing but spaces. -/
def Spaces (sp : List Char) : Prop := ∀ c ∈ sp, isSpace c = true

section Spaces

variable {sp cs : List Char} {c : Char}

theorem spaces_nil : Spaces [] := fun _ h => nomatch h

/-- Spaces in front of a text do not change what is found behind them. -/
theorem skipSpaces_append (h : Spaces sp) (cs : List Char) :
    skipSpaces (sp ++ cs) = skipSpaces cs :=
  List.dropWhile_append_of_pos h

theorem skipSpaces_cons (h : isSpace c = false) : skipSpaces (c :: cs) = c :: cs := by
  rw [skipSpaces, List.dropWhile_cons, if_neg (by rw [h]; exact Bool.false_ne_true)]

/-- The first character that is no space is found behind any spaces. Every reader starts with this
step. -/
theorem skipSpaces_append_cons (hsp : Spaces sp) (hc : isSpace c = false) :
    skipSpaces (sp ++ c :: cs) = c :: cs := by
  rw [skipSpaces_append hsp, skipSpaces_cons hc]

end Spaces

/-! ## Values that have a text -/

/-- What can be written and read back: finite numbers, integers of 64 bits, and at most `depth`
levels of arrays and objects. -/
def Fits : (depth : Nat) → Json → Prop
  | _, .null | _, .bool _ | _, .string _ => True
  | _, .integer k => -(UInt64.size / 2 : Nat) ≤ k ∧ k < UInt64.size
  | _, .float x => x.isFinite = true
  | 0, .array _ | 0, .object _ => False
  | depth + 1, .array items => ∀ item ∈ items, Fits depth item
  | depth + 1, .object members => ∀ member ∈ members, Fits depth member.2

mutual

/-- A text of a value, with spaces between its parts. -/
def Form : Json → List Char → Prop
  | .array items, cs => ∃ body, cs = '[' :: body ∧
      (items = [] ∧ ItemsForm items body ∨ ItemsForm items (',' :: body))
  | .object members, cs => ∃ body, cs = '\x7b' :: body ∧
      (members = [] ∧ MembersForm members body ∨ MembersForm members (',' :: body))
  | value, cs => cs = scalar value

/-- A text of items, each after a comma, with the bracket that closes the array. -/
def ItemsForm : List Json → List Char → Prop
  | [], cs => ∃ sp, Spaces sp ∧ cs = sp ++ [']']
  | item :: rest, cs => ∃ sp text more, Spaces sp ∧ Form item text ∧ ItemsForm rest more ∧
      cs = ',' :: (sp ++ (text ++ more))

/-- A text of members, each after a comma, with the brace that closes the object. -/
def MembersForm : List (String × Json) → List Char → Prop
  | [], cs => ∃ sp, Spaces sp ∧ cs = sp ++ ['\x7d']
  | (name, value) :: rest, cs => ∃ sp sp' text more, Spaces sp ∧ Spaces sp' ∧ Form value text ∧
      MembersForm rest more ∧ cs = ',' :: (sp ++ (quoted name ++ ':' :: (sp' ++ (text ++ more))))

end

/-! ## What the writers make -/

mutual

/-- What is written on one line is a text of the value, with no spaces between its parts. Induction
on the value, together with its items and members: the writer puts the comma between two of them,
while a text has one in front of each, so the opening bracket stands in for the comma that the first
item lacks. -/
theorem form_oneLine : (value : Json) → Form value value.oneLine
  | .array [] => by
    rw [oneLine, oneLineItems, Form]
    exact ⟨_, rfl, .inl ⟨rfl, by rw [ItemsForm]; exact ⟨[], spaces_nil, rfl⟩⟩⟩
  | .array (item :: rest) => by
    rw [oneLine, Form]
    -- the items have a comma in front of each, and the bracket takes the place of the first
    exact ⟨_, rfl, .inr (itemsForm_oneLine (item :: rest) (List.cons_ne_nil _ _))⟩
  | .object [] => by
    rw [oneLine, oneLineMembers, Form]
    exact ⟨_, rfl, .inl ⟨rfl, by rw [MembersForm]; exact ⟨[], spaces_nil, rfl⟩⟩⟩
  | .object (member :: rest) => by
    rw [oneLine, Form]
    exact ⟨_, rfl, .inr (membersForm_oneLine (member :: rest) (List.cons_ne_nil _ _))⟩
  | .null | .bool _ | .integer _ | .float _ | .string _ => by
    simp only [oneLine, Form]

/-- The items on one line, with a comma in front that the first of them does not have in the array.
The last item is a case of its own, as no comma follows it. -/
theorem itemsForm_oneLine : (items : List Json) → items ≠ [] →
    ItemsForm items (',' :: (oneLineItems items ++ [']']))
  | [], h => absurd rfl h
  | [item], _ => by
    rw [ItemsForm, oneLineItems]
    refine ⟨[], item.oneLine, [']'], spaces_nil, form_oneLine item, ?_, rfl⟩
    rw [ItemsForm]
    exact ⟨[], spaces_nil, rfl⟩
  | item :: next :: rest, _ => by
    have h := itemsForm_oneLine (next :: rest) (List.cons_ne_nil _ _)
    rw [ItemsForm, oneLineItems]
    · refine ⟨[], item.oneLine, _, spaces_nil, form_oneLine item, h, ?_⟩
      -- the comma that the writer puts after an item is the one in front of the next
      simp
    · exact List.cons_ne_nil next rest

theorem membersForm_oneLine : (members : List (String × Json)) → members ≠ [] →
    MembersForm members (',' :: (oneLineMembers members ++ ['\x7d']))
  | [], h => absurd rfl h
  | [(name, value)], _ => by
    rw [MembersForm, oneLineMembers]
    refine ⟨[], [], value.oneLine, ['\x7d'], spaces_nil, spaces_nil, form_oneLine value, ?_, ?_⟩
    · rw [MembersForm]
      exact ⟨[], spaces_nil, rfl⟩
    · -- no spaces on either side of the colon
      simp
  | (name, value) :: next :: rest, _ => by
    have h := membersForm_oneLine (next :: rest) (List.cons_ne_nil _ _)
    rw [MembersForm, oneLineMembers]
    · refine ⟨[], [], value.oneLine, _, spaces_nil, spaces_nil, form_oneLine value, h, ?_⟩
      simp
    · exact List.cons_ne_nil next rest

end

/-- What the writer over several lines puts between two parts, a line feed and the indent, is
spaces. -/
theorem spaces_newLine (indent depth : Nat) : Spaces (newLine indent depth) := by
  intro c hc
  rw [newLine, List.mem_cons] at hc
  rcases hc with rfl | hc
  · rfl
  · rw [List.eq_of_mem_replicate hc]
    rfl

theorem spaces_single : Spaces [' '] := by
  intro c hc
  rw [List.mem_singleton.1 hc]
  rfl

mutual

/-- What is written over several lines is a text of the value as well, whatever the indent and the
depth it starts at. -/
theorem form_spread (indent depth : Nat) : (value : Json) → Form value (value.spread indent depth)
  | .array [] => by
    rw [spread, Form]
    exact ⟨_, rfl, .inl ⟨rfl, by rw [ItemsForm]; exact ⟨[], spaces_nil, rfl⟩⟩⟩
  | .array (item :: rest) => by
    rw [spread, Form]
    refine ⟨_, rfl, .inr ?_⟩
    -- past the comma in front of the first item, which is not written
    have h := itemsForm_spread indent depth (item :: rest)
    rw [spreadItems] at h
    simpa using h
  | .object [] => by
    rw [spread, Form]
    exact ⟨_, rfl, .inl ⟨rfl, by rw [MembersForm]; exact ⟨[], spaces_nil, rfl⟩⟩⟩
  | .object ((name, value) :: rest) => by
    rw [spread, Form]
    refine ⟨_, rfl, .inr ?_⟩
    have h := membersForm_spread indent depth ((name, value) :: rest)
    rw [spreadMembers] at h
    simpa using h
  | .null | .bool _ | .integer _ | .float _ | .string _ => by
    simp only [spread, Form]

/-- The items over several lines. Each of them comes on a line of its own after its comma, the first
one included, so there is no case for the last of them here. -/
theorem itemsForm_spread (indent depth : Nat) : (items : List Json) →
    ItemsForm items (spreadItems indent (depth + 1) items ++ newLine indent depth ++ [']'])
  | [] => by
    rw [ItemsForm, spreadItems, List.nil_append]
    exact ⟨_, spaces_newLine indent depth, rfl⟩
  | item :: rest => by
    rw [ItemsForm, spreadItems]
    refine ⟨_, _, _, spaces_newLine indent (depth + 1), form_spread indent (depth + 1) item,
      itemsForm_spread indent depth rest, ?_⟩
    simp

theorem membersForm_spread (indent depth : Nat) : (members : List (String × Json)) →
    MembersForm members (spreadMembers indent (depth + 1) members ++ newLine indent depth ++
      ['\x7d'])
  | [] => by
    rw [MembersForm, spreadMembers, List.nil_append]
    exact ⟨_, spaces_newLine indent depth, rfl⟩
  | (name, value) :: rest => by
    rw [MembersForm, spreadMembers]
    refine ⟨_, _, _, _, spaces_newLine indent (depth + 1), spaces_single,
      form_spread indent (depth + 1) value, membersForm_spread indent depth rest, ?_⟩
    simp

end

end SpeechTranscript.Json
