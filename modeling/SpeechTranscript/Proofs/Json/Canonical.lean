import Mathlib
import SpeechTranscript.Json.Value

/-!
# Canonical values

An object whose members stand in the order of their names, no name twice, is kept by the canonical
form if its values are. So what is built in canonical form can be put into it again and does not
change.
-/

namespace SpeechTranscript

namespace Entries

variable {α : Type} {name : String} {value : α} {entries settings : List (String × α)}

/-- A setting with the last name of all goes to the end. -/
theorem insert_eq_append (h : ∀ entry ∈ entries, entry.1 < name) :
    insert name value entries = entries ++ [(name, value)] := by
  induction entries with
  | nil => rfl
  | cons entry rest ih =>
    obtain ⟨hentry, hrest⟩ := List.forall_mem_cons.1 h
    rw [insert, if_neg hentry.not_gt, if_neg hentry.ne', ih hrest, List.cons_append]

/-- Entries in the order of their names are kept as they are. -/
theorem ofList_eq_self (h : (settings.map (·.1)).Pairwise (· < ·)) :
    ofList settings = settings := by
  -- from the end, where the last name is set
  induction settings using List.reverseRecOn with
  | nil => rfl
  | append_singleton settings last ih =>
    rw [List.map_append, List.pairwise_append] at h
    obtain ⟨hfront, -, hlast⟩ := h
    have hless : ∀ entry ∈ settings, entry.1 < last.1 := fun entry hentry =>
      hlast _ (List.mem_map_of_mem hentry) _ (List.mem_singleton_self _)
    have hfold := ih hfront
    unfold ofList at hfold ⊢
    rw [List.foldl_append, hfold, List.foldl_cons, List.foldl_nil, insert_eq_append hless]

end Entries

namespace Json

/-- Items in canonical form are kept. -/
theorem canonicalItems_eq_self {items : List Json} (h : ∀ item ∈ items, item.canonical = item) :
    canonicalItems items = items := by
  induction items with
  | nil => rw [canonicalItems]
  | cons item rest ih =>
    obtain ⟨hitem, hrest⟩ := List.forall_mem_cons.1 h
    rw [canonicalItems, hitem, ih hrest]

/-- Members with values in canonical form are kept. -/
theorem canonicalMembers_eq_self {members : List (String × Json)}
    (h : ∀ member ∈ members, member.2.canonical = member.2) :
    canonicalMembers members = members := by
  induction members with
  | nil => rw [canonicalMembers]
  | cons member rest ih =>
    obtain ⟨hmember, hrest⟩ := List.forall_mem_cons.1 h
    rw [canonicalMembers, hmember, ih hrest]

theorem canonical_array {items : List Json} (h : ∀ item ∈ items, item.canonical = item) :
    (array items).canonical = .array items := by
  rw [canonical, canonicalItems_eq_self h]

/-- An object of canonical values under names in order is canonical. -/
theorem canonical_object {members : List (String × Json)}
    (hnames : (members.map (·.1)).Pairwise (· < ·))
    (h : ∀ member ∈ members, member.2.canonical = member.2) :
    (object members).canonical = .object members := by
  rw [canonical, canonicalMembers_eq_self h, Entries.ofList_eq_self hnames]

end Json

end SpeechTranscript
