import SpeechTranscript.Proofs.Json.Canonical
import SpeechTranscript.Proofs.Json.Form

/-!
# Values with members in order

The canonical form of a value has its members in order, is no deeper than the value and is itself
canonical. A value whose members are in order from the start is its own canonical form.

* `Ordered.canonical_eq`, `ordered_canonical`: the canonical values are those in order.
* `fits_canonical`: the canonical form of a value that can be written can be written.
-/

namespace SpeechTranscript

namespace Entries

variable {α : Type} {name : String} {value : α} {entries settings : List (String × α)}

/-- An entry after a setting is the new one or one from before. -/
theorem mem_insert {entry : String × α} (h : entry ∈ insert name value entries) :
    entry = (name, value) ∨ entry ∈ entries := by
  induction entries with
  | nil => exact .inl (List.mem_singleton.1 h)
  | cons first rest ih =>
    rw [insert] at h
    split at h
    · exact List.mem_cons.1 h
    · split at h
      · exact (List.mem_cons.1 h).imp_right (List.mem_cons_of_mem _)
      · rcases List.mem_cons.1 h with rfl | h
        · exact .inr List.mem_cons_self
        · exact (ih h).imp_right (List.mem_cons_of_mem _)

/-- Setting a value keeps the names in order. -/
theorem pairwise_insert (h : (entries.map (·.1)).Pairwise (· < ·)) :
    ((insert name value entries).map (·.1)).Pairwise (· < ·) := by
  induction entries with
  | nil => exact List.pairwise_singleton _ _
  | cons first rest ih =>
    obtain ⟨hfirst, hrest⟩ := List.pairwise_cons.1 h
    rw [insert]
    split
    · rename_i hless
      refine .cons (List.forall_mem_cons.2 ⟨hless, fun other hother => ?_⟩) h
      exact hless.trans (hfirst other hother)
    · rename_i hnot
      split
      · rename_i hsame
        exact .cons (hsame ▸ hfirst) hrest
      · rename_i hother
        have hless : first.1 < name := lt_of_le_of_ne (not_lt.1 hnot) (Ne.symm hother)
        refine .cons (fun other hmem => ?_) (ih hrest)
        -- names behind the first are the new one or follow the first already
        obtain ⟨entry, hentry, rfl⟩ := List.mem_map.1 hmem
        rcases mem_insert hentry with rfl | hentry
        · exact hless
        · exact hfirst _ (List.mem_map_of_mem hentry)

/-- What settings make is in order, and holds nothing but settings. -/
theorem ofList_spec (settings : List (String × α)) :
    ((ofList settings).map (·.1)).Pairwise (· < ·) ∧
      ∀ entry ∈ ofList settings, entry ∈ settings := by
  induction settings using List.reverseRecOn with
  | nil => exact ⟨.nil, fun _ h => h⟩
  | append_singleton settings last ih =>
    obtain ⟨hnames, hentries⟩ := ih
    -- from the end, where the last setting is made
    have hlast : ofList (settings ++ [last]) = insert last.1 last.2 (ofList settings) := by
      unfold ofList
      rw [List.foldl_append, List.foldl_cons, List.foldl_nil]
    rw [hlast]
    refine ⟨pairwise_insert hnames, fun entry hentry => ?_⟩
    rcases mem_insert hentry with rfl | hentry
    · exact List.mem_append_right _ (List.mem_singleton_self _)
    · exact List.mem_append_left _ (hentries entry hentry)

end Entries

namespace Json

/-- The members of every object are in the order of their names, and no name occurs twice. -/
inductive Ordered : Json → Prop where
  | null : Ordered null
  | bool (b : Bool) : Ordered (bool b)
  | integer (k : ℤ) : Ordered (integer k)
  | float (x : Float) : Ordered (float x)
  | string (s : String) : Ordered (string s)
  | array {items : List Json} (items_ordered : ∀ item ∈ items, Ordered item) :
      Ordered (array items)
  | object {members : List (String × Json)} (names : (members.map (·.1)).Pairwise (· < ·))
      (values : ∀ member ∈ members, Ordered member.2) : Ordered (object members)

/-- A value with members in order is canonical. -/
theorem Ordered.canonical_eq {value : Json} (h : Ordered value) : value.canonical = value := by
  induction h with
  | array _ ih => exact canonical_array ih
  | object hnames _ ih => exact canonical_object hnames ih
  | _ => rfl

mutual

/-- The canonical form of a value has its members in order. -/
theorem ordered_canonical : (value : Json) → Ordered value.canonical
  | .array items => by
    rw [canonical]
    exact .array (ordered_canonicalItems items)
  | .object members => by
    rw [canonical]
    have hspec := Entries.ofList_spec (canonicalMembers members)
    exact .object hspec.1 fun member hmember =>
      ordered_canonicalMembers members member (hspec.2 member hmember)
  | .null => .null
  | .bool b => .bool b
  | .integer k => .integer k
  | .float x => .float x
  | .string s => .string s

/-- The items of a canonical array are canonical. -/
theorem ordered_canonicalItems : (items : List Json) → ∀ item ∈ canonicalItems items, Ordered item
  | [] => by
    rw [canonicalItems]
    exact List.forall_mem_nil _
  | item :: rest => by
    rw [canonicalItems]
    exact List.forall_mem_cons.2 ⟨ordered_canonical item, ordered_canonicalItems rest⟩

/-- The values of a canonical object are canonical before the names are put in order. -/
theorem ordered_canonicalMembers : (members : List (String × Json)) →
    ∀ member ∈ canonicalMembers members, Ordered member.2
  | [] => by
    rw [canonicalMembers]
    exact List.forall_mem_nil _
  | (name, value) :: rest => by
    rw [canonicalMembers]
    exact List.forall_mem_cons.2 ⟨ordered_canonical value, ordered_canonicalMembers rest⟩

end

theorem canonicalItems_eq_map (items : List Json) : canonicalItems items = items.map canonical := by
  induction items with
  | nil => rw [canonicalItems, List.map_nil]
  | cons item rest ih => rw [canonicalItems, ih, List.map_cons]

theorem canonicalMembers_eq_map (members : List (String × Json)) :
    canonicalMembers members = members.map fun member => (member.1, member.2.canonical) := by
  induction members with
  | nil => rw [canonicalMembers, List.map_nil]
  | cons member rest ih => rw [canonicalMembers, ih, List.map_cons]

/-- The canonical form of a value that can be written can be written. -/
theorem fits_canonical {depth : ℕ} {value : Json} (h : Fits depth value) :
    Fits depth value.canonical := by
  induction depth generalizing value with
  | zero =>
    cases value with
    | array items => exact h.elim
    | object members => exact h.elim
    | _ => exact h
  | succ depth ih =>
    cases value with
    | array items =>
      rw [Fits] at h
      rw [canonical, canonicalItems_eq_map, Fits]
      exact List.forall_mem_map.2 fun item hitem => ih (h item hitem)
    | object members =>
      rw [Fits] at h
      rw [canonical, canonicalMembers_eq_map, Fits]
      intro member hmember
      -- a member of the canonical form is one of the members, as some may have been set anew
      obtain ⟨source, hsource, rfl⟩ := List.mem_map.1 ((Entries.ofList_spec _).2 member hmember)
      exact ih (h source hsource)
    | _ => exact h

end Json

end SpeechTranscript
