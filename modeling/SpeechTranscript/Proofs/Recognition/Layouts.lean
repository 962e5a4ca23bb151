import SpeechTranscript.Proofs.Json.Outcome
import SpeechTranscript.Recognition.Dump

/-!
# The two layouts of a dump

A dump lists its utterances in an array, which stands alone or is the member `segments` of an
object. Both list the same utterances, or both list none, whatever the array holds and whatever else
the object has, provided that everything else in the object can be read: JSON allows numbers past
the range of doubles and halves of surrogate pairs, and the reader refuses an object with one of
these even where nobody asks for it.

* `WrapsList`: the objects with a list as their only member `segments`.
* `Dump.read_wrapped_iff`: what an object lists, by what its list lists.
-/

namespace SpeechTranscript

open Json

/-! ## All parts or none -/

section All

variable {α β : Type} {f : α → Option β} {l : List α} {bs : List β} {b : β}

/-- A list is mapped if all its items are. -/
theorem exists_mapM_eq_some_iff : (∃ bs, l.mapM f = some bs) ↔ ∀ a ∈ l, ∃ b, f a = some b := by
  induction l with
  | nil => exact ⟨fun _ => nofun, fun _ => ⟨[], rfl⟩⟩
  | cons a l ih =>
    rw [List.forall_mem_cons, ← ih, List.mapM_cons]
    cases f a <;> cases l.mapM f <;> simp

theorem exists_of_mem_mapM (h : l.mapM f = some bs) (hb : b ∈ bs) : ∃ a ∈ l, f a = some b := by
  induction l generalizing bs with
  | nil =>
    cases h
    cases hb
  | cons a l ih =>
    simp only [List.mapM_cons, Option.bind_eq_bind, Option.bind_eq_some_iff] at h
    obtain ⟨first, hfirst, rest, hrest, heq⟩ := h
    cases heq
    rcases List.mem_cons.1 hb with rfl | hb
    · exact ⟨a, List.mem_cons_self, hfirst⟩
    · obtain ⟨a', ha', hmem⟩ := ih hrest hb
      exact ⟨a', List.mem_cons_of_mem _ ha', hmem⟩

end All

/-! ## Members -/

/-- The only member with a name is the one that counts. -/
theorem Field.named_eq_once {before after : List (String × Json)} {name : String} {value : Json}
    (hbefore : ∀ m ∈ before, m.1 ≠ name) (hafter : ∀ m ∈ after, m.1 ≠ name) :
    named (before ++ (name, value) :: after) name = .once value := by
  have hnone : ∀ members : List (String × Json), (∀ m ∈ members, m.1 ≠ name) →
      members.filter (·.1 == name) = [] := by
    intro members hother
    rw [List.filter_eq_nil_iff]
    intro m hm
    rw [beq_iff_eq]
    exact hother m hm
  have hhere : ((name, value).1 == name) = true := beq_self_eq_true name
  rw [named, List.filter_append, List.filter_cons, if_pos hhere, hnone _ hbefore, hnone _ hafter]
  rfl

namespace Json.Member

variable {member : Member} {name : String} {value : Json}

/-- The name and the value of a member are within what the reader can take in. -/
def Readable (member : Member) : Prop :=
  decode? member.name ≠ none ∧ ∃ value, read member.value = .ok value

theorem outcome_eq_some_iff : member.outcome valueOf? = some (name, value) ↔
    ∃ cs, decode? member.name = some cs ∧ String.ofList cs = name ∧
      valueOf? member.value = some value := by
  unfold outcome
  cases decode? member.name <;> cases valueOf? member.value <;> simp [eq_comm]

/-- A member is readable if it is read as something. -/
theorem readable_iff : member.Readable ↔ ∃ read, member.outcome valueOf? = some read := by
  constructor
  · rintro ⟨hname, value, hvalue⟩
    obtain ⟨cs, hcs⟩ := Option.ne_none_iff_exists'.1 hname
    exact ⟨_, outcome_eq_some_iff.2 ⟨cs, hcs, rfl, valueOf?_eq_some_iff.2 hvalue⟩⟩
  · rintro ⟨⟨name, value⟩, h⟩
    obtain ⟨cs, hcs, -, hvalue⟩ := outcome_eq_some_iff.1 h
    exact ⟨by rw [hcs]; nofun, value, valueOf?_eq_some_iff.1 hvalue⟩

instance : DecidablePred Readable := fun member =>
  decidable_of_iff ((member.outcome valueOf?).isSome = true) <| by
    rw [readable_iff, Option.isSome_iff_exists]

end Json.Member

/-! ## Dumps -/

/-- An object whose only member `segments` has a list as its value, with the members that stand
before it and after it. -/
structure WrapsList (list : List Char) (before after : List Member) (text : List Char) : Prop where
  isList : ArrayText (IsJson 125) list
  others : ∀ member ∈ before ++ after, member.Valid (IsJson 126) ∧
    decode? member.name ≠ some "segments".toList
  isText : ∃ name, (∀ mark ∈ name, mark.Valid) ∧ decode? name = some "segments".toList ∧
    ObjectText (before ++ ⟨name, list⟩ :: after) text

namespace WrapsList

variable {list text : List Char} {before after : List Member}

theorem isJson_list (h : WrapsList list before after text) : IsJson 126 list := .inr (.inl h.isList)

theorem members (h : WrapsList list before after text) : ∃ members,
    ObjectText members text ∧ (∀ member ∈ members, member.Valid (IsJson 126)) ∧
      members.mapM (Member.outcome valueOf?) = do
        let front ← before.mapM (Member.outcome valueOf?)
        let value ← valueOf? list
        let back ← after.mapM (Member.outcome valueOf?)
        return front ++ ("segments", value) :: back := by
  obtain ⟨name, hname, hdecode, htext⟩ := h.isText
  refine ⟨_, htext, fun member hmember => ?_, ?_⟩
  · rw [List.mem_append, List.mem_cons] at hmember
    rcases hmember with hbefore | rfl | hafter
    · exact (h.others member (List.mem_append_left _ hbefore)).1
    · exact ⟨hname, h.isJson_list⟩
    · exact (h.others member (List.mem_append_right _ hafter)).1
  · have hhere : Member.outcome valueOf? ⟨name, list⟩ =
        (valueOf? list).map fun value => ("segments", value) := by
      rw [Member.outcome, hdecode, Option.bind_eq_bind, Option.bind_some, String.ofList_toList]
      cases valueOf? list <;> rfl
    rw [List.mapM_append]
    -- the same members are read in the same order, whatever becomes of the list
    cases before.mapM (Member.outcome valueOf?) with
    | none => rfl
    | some front =>
      rw [List.mapM_cons, hhere]
      cases valueOf? list <;> cases after.mapM (Member.outcome valueOf?) <;> rfl

theorem isJson_text (h : WrapsList list before after text) : IsJson 127 text := by
  obtain ⟨members, htext, hvalid, -⟩ := h.members
  exact .inr (.inr ⟨members, htext, hvalid⟩)

/-- No other member is read under the name of the list. -/
theorem name_ne (h : WrapsList list before after text) {members : List Member}
    (hmembers : ∀ member ∈ members, member ∈ before ++ after) {read : List (String × Json)}
    (hread : members.mapM (Member.outcome valueOf?) = some read) :
    ∀ m ∈ read, m.1 ≠ "segments" := by
  rintro ⟨name, value⟩ hm rfl
  obtain ⟨member, hmember, houtcome⟩ := exists_of_mem_mapM hread hm
  obtain ⟨cs, hcs, hname, -⟩ := Member.outcome_eq_some_iff.1 houtcome
  refine (h.others member (hmembers member hmember)).2 ?_
  rw [hcs, ← hname, String.toList_ofList]

/-- What the object lists is what the list lists, as long as all other members are readable. -/
theorem bind_ofJson?_eq_some_iff (h : WrapsList list before after text)
    {utterances : List Utterance} :
    (valueOf? text).bind Dump.ofJson? = some utterances ↔
      (valueOf? list).bind Dump.ofJson? = some utterances ∧
        ∀ member ∈ before ++ after, member.Readable := by
  obtain ⟨members, htext, hvalid, hmembers⟩ := h.members
  obtain ⟨items, henclosed, hitems⟩ := h.isList
  have hothers : (∀ member ∈ before ++ after, member.Readable) ↔
      (∃ front, before.mapM (Member.outcome valueOf?) = some front) ∧
        ∃ back, after.mapM (Member.outcome valueOf?) = some back := by
    rw [exists_mapM_eq_some_iff, exists_mapM_eq_some_iff, List.forall_mem_append]
    simp only [Member.readable_iff]
  rw [hothers, valueOf?_object hvalid (by decide) htext, hmembers]
  cases hfront : before.mapM (Member.outcome valueOf?) with
  | none => exact ⟨nofun, fun hall => nomatch hall.2.1⟩
  | some front =>
    cases hback : after.mapM (Member.outcome valueOf?) with
    | none =>
      refine ⟨fun hlisted => ?_, fun hall => nomatch hall.2.2⟩
      cases hvalue : valueOf? list <;> rw [hvalue] at hlisted <;> cases hlisted
    | some back =>
      have hnamed (value : Json) :
          Field.named (front ++ ("segments", value) :: back) "segments" = .once value :=
        Field.named_eq_once
          (h.name_ne (fun member hmember => List.mem_append_left _ hmember) hfront)
          (h.name_ne (fun member hmember => List.mem_append_right _ hmember) hback)
      -- a list is no object, so it is looked at in the same way in both places
      have hlist := valueOf?_array hitems (by decide) henclosed
      rw [and_iff_left ⟨⟨front, rfl⟩, ⟨back, rfl⟩⟩, hlist]
      cases items.mapM valueOf? with
      | none => rfl
      | some values =>
        show (Field.named _ "segments").required? Utterance.listOfJson? = _ ↔ _
        rw [hnamed]
        rfl

end WrapsList

namespace Dump

variable {d : ℕ} {cs front back : List Char} {utterances : List Utterance}

/-- A dump lists what the value that it stands for lists, whatever spaces are around it. -/
theorem read_eq_ok_iff (h : IsJson d cs) (hd : d ≤ deepest) (hfront : Spaces front)
    (hback : Spaces back) : read (front ++ (cs ++ back)) = .ok utterances ↔
      (valueOf? cs).bind ofJson? = some utterances := by
  have hends : EndsNumber (back ++ []) := endsNumber_spaces hback nofun
  rw [List.append_nil] at hends
  have hread := h.settled hd le_rfl hfront hends
  have hend : readEnd back = .ok () := by
    rw [readEnd, ← List.append_nil back, skipSpaces_append hback]
    rfl
  unfold read readFirst
  -- a text without a value is read as nothing, so there is nothing to list
  cases hvalue : valueOf? cs with
  | none =>
    rw [hvalue] at hread
    obtain ⟨fault, hread⟩ := hread
    rw [hread]
    exact ⟨nofun, nofun⟩
  | some value =>
    rw [hvalue] at hread
    obtain ⟨shorter, hread⟩ := hread
    rw [hread, Option.bind_some]
    simp only [bind, Except.bind, pure, Except.pure, Except.mapError]
    cases ofJson? value with
    | none => exact ⟨nofun, nofun⟩
    | some listed =>
      rw [hend]
      exact ⟨fun h => congrArg some (Except.ok.inj h), fun h => congrArg _ (Option.some.inj h)⟩

/-- An object lists what its only member `segments` lists when this stands alone, whatever other
members it has, provided that these are readable; otherwise it lists nothing. -/
theorem read_wrapped_iff {list text : List Char} {before after : List Member}
    (h : WrapsList list before after text) {front back front' back' : List Char}
    (hfront : Spaces front) (hback : Spaces back) (hfront' : Spaces front')
    (hback' : Spaces back') (utterances : List Utterance) :
    read (front ++ (text ++ back)) = .ok utterances ↔
      read (front' ++ (list ++ back')) = .ok utterances ∧
        ∀ member ∈ before ++ after, member.Readable := by
  rw [read_eq_ok_iff h.isJson_text le_rfl hfront hback, h.bind_ofJson?_eq_some_iff,
    read_eq_ok_iff h.isJson_list (by decide) hfront' hback']

end Dump

/-- JSON has a number for every power of ten. -/
theorem isScalar_power {ds : List Char} (hds : IsDigits ds) : IsScalar ('1' :: 'e' :: ds) :=
  .inr (.inl ⟨false, _, ⟨['1'], [], 'e' :: ds, ⟨⟨by decide, List.all_eq_true.1 rfl⟩, fun _ => rfl⟩,
    .inl rfl, .inr ⟨'e', [], ds, .inl rfl, .inl rfl, hds, rfl⟩, rfl⟩, rfl⟩)

/-- An object with an escaped name for its list, and another member after it. -/
theorem wrapsList_sample : WrapsList "[[0,1e1,\"hi\"]]".toList [] [⟨[.plain 'x'], "null".toList⟩]
    "\x7b\"\\u0073egments\": [[0,1e1,\"hi\"]],\"x\":null\x7d".toList where
  isList := by
    have hzero : IsScalar ['0'] := .inr (.inl ⟨false, _, ⟨['0'], [], [],
      ⟨⟨by decide, List.all_eq_true.1 rfl⟩, fun _ => rfl⟩, .inl rfl, .inl rfl, rfl⟩, rfl⟩)
    have hten : IsScalar ['1', 'e', '1'] := isScalar_power ⟨by decide, List.all_eq_true.1 rfl⟩
    have hstring : IsScalar ['"', 'h', 'i', '"'] :=
      .inr (.inr ⟨[.plain 'h', .plain 'i'], by decide, rfl⟩)
    have hutterance : IsJson 125 "[0,1e1,\"hi\"]".toList := by
      refine .inr (.inl ⟨[['0'], ['1', 'e', '1'], ['"', 'h', 'i', '"']], ?_, ?_⟩)
      · exact ⟨[], _, spaces_nil, ⟨[], [], _, spaces_nil, spaces_nil,
          ⟨[], [], _, spaces_nil, spaces_nil, ⟨[], spaces_nil, rfl⟩, rfl⟩, rfl⟩, rfl⟩
      · simp only [List.forall_mem_cons]
        exact ⟨hzero.isJson 124, hten.isJson 124, hstring.isJson 124, nofun⟩
    refine ⟨["[0,1e1,\"hi\"]".toList], ⟨[], _, spaces_nil, ⟨[], spaces_nil, rfl⟩, rfl⟩, ?_⟩
    exact List.forall_mem_singleton.2 hutterance
  others := List.forall_mem_singleton.2
    ⟨⟨by decide, IsScalar.isJson (.inl (.inl rfl)) 126⟩, by decide⟩
  isText := by
    -- the name is spelled with an escape and counts as the same name
    refine ⟨.unit "0073".toList 0x73 :: "egments".toList.map .plain, by decide, by decide, ?_⟩
    refine ⟨["\"\\u0073egments\": [[0,1e1,\"hi\"]]".toList, "\"x\":null".toList],
      .cons ⟨[], [' '], spaces_nil, List.forall_mem_singleton.2 rfl, rfl⟩ (.cons ⟨[], [], spaces_nil, spaces_nil, rfl⟩
        .nil), ?_⟩
    exact ⟨[], _, spaces_nil, ⟨[], [], _, spaces_nil, spaces_nil, ⟨[], spaces_nil, rfl⟩, rfl⟩, rfl⟩

/-- The object lists the utterance of its list. -/
theorem read_wrapped_sample :
    Dump.read " \x7b\"\\u0073egments\": [[0,1e1,\"hi\"]],\"x\":null\x7d".toList =
      .ok [⟨0, 10, "hi", 1, none, none, none⟩] :=
  (Dump.read_wrapped_iff wrapsList_sample
    (List.forall_mem_singleton.2 rfl : Spaces [' ']) spaces_nil spaces_nil spaces_nil _).2
      ⟨by decide +kernel, by decide +kernel⟩

/-- The other members count: an empty list beside a number past the range of doubles. -/
theorem read_wrapped_ne_of_overflow :
    WrapsList "[]".toList [⟨[.plain 'x'], "1e999".toList⟩] []
      "\x7b\"x\":1e999,\"segments\":[]\x7d".toList ∧
    Dump.read "[]".toList = .ok [] ∧
    ∀ utterances, Dump.read "\x7b\"x\":1e999,\"segments\":[]\x7d".toList ≠ .ok utterances := by
  refine ⟨⟨?_, ?_, ?_⟩, by decide +kernel, fun utterances h => ?_⟩
  · exact ⟨[], ⟨[], spaces_nil, rfl⟩, nofun⟩
  · refine List.forall_mem_singleton.2 ⟨⟨by decide, IsScalar.isJson ?_ 126⟩, by decide⟩
    -- the text of the other member is one that JSON allows
    have hds : IsDigits "999".toList := ⟨by decide, List.all_eq_true.1 rfl⟩
    exact isScalar_power hds
  · refine ⟨"segments".toList.map .plain, by decide, by decide, ?_⟩
    refine ⟨["\"x\":1e999".toList, "\"segments\":[]".toList],
      .cons ⟨[], [], spaces_nil, spaces_nil, rfl⟩ (.cons ⟨[], [], spaces_nil, spaces_nil, rfl⟩
        .nil), ?_⟩
    exact ⟨[], _, spaces_nil, ⟨[], [], _, spaces_nil, spaces_nil, ⟨[], spaces_nil, rfl⟩, rfl⟩, rfl⟩
  · -- but it is too large for a double
    have hfault : (Dump.read "\x7b\"x\":1e999,\"segments\":[]\x7d".toList).toOption = none := by
      decide +kernel
    rw [h] at hfault
    cases hfault

end SpeechTranscript
