import Mathlib.Logic.Basic
import SpeechTranscript.CommandLine.FileTree

/-!
# What a write changes

A path leads part by part from folder to folder. A text that is written to it comes to stand at one
place: in a file, which is read back under the same path, or on a device. Whatever else is in the
tree stays as it is.

* `placeOf_setFile`: where names lead once a file is set.
* `written_of_write`: what a write changes and what it leaves.
-/

namespace SpeechTranscript

/-- A place where a file with these names is or could be. -/
inductive Place.Holds (names : List String) : Place → Prop where
  | file (content : ByteArray) : Holds names (.file names content)
  | free : Holds names (.free names)

namespace FileTree

/-! ## Setting a file -/

section SetFile

variable {names : List String} {content : ByteArray} {files : List (List String × ByteArray)}

/-- A file that is set is found with its content. -/
theorem lookup_setFile_self : (setFile names content files).lookup names = some content := by
  induction files with
  | nil => rw [setFile, List.lookup_cons_self]
  | cons file rest ih =>
    rw [setFile]
    split
    · rw [List.lookup_cons_self]
    · rename_i hother
      obtain ⟨name, old⟩ := file
      have hne : (names == name) = false := beq_eq_false_iff_ne.2 (Ne.symm hother)
      rw [List.lookup_cons, hne]
      exact ih

/-- All other files are found as before. -/
theorem lookup_setFile_of_ne {other : List String} (h : other ≠ names) :
    (setFile names content files).lookup other = files.lookup other := by
  have hne : (other == names) = false := beq_eq_false_iff_ne.2 h
  induction files with
  | nil => rw [setFile, List.lookup_cons, hne]
  | cons file rest ih =>
    obtain ⟨name, old⟩ := file
    rw [setFile]
    split
    · rename_i hname
      have hname : name = names := hname
      rw [List.lookup_cons, List.lookup_cons, hname, hne]
    · rw [List.lookup_cons, List.lookup_cons, ih]

end SetFile

/-! ## Places -/

section Places

variable {t : FileTree} {names other : List String} {place final : Place} {content : ByteArray}
  {parts : List (List Char)}

/-- A file, or a free place for one, is at no other names than its own. -/
theorem names_of_holds (h : (t.placeOf other).Holds names) : names = other := by
  unfold placeOf at h
  split at h
  · cases h
  · split at h
    · cases h
      rfl
    · split at h
      · cases h
      · cases h
        rfl

/-- Where names lead once a file is set that is there or could be there. -/
theorem placeOf_setFile (h : (t.placeOf names).Holds names) (other : List String) :
    ({ t with files := setFile names content t.files } : FileTree).placeOf other =
      if other = names then .file names content else t.placeOf other := by
  split
  · rename_i hsame
    subst hsame
    -- a device has no place for a file
    have hdevice : Device.ofNames? other = none := by
      cases hdevice : Device.ofNames? other with
      | none => rfl
      | some device =>
        unfold placeOf at h
        rw [hdevice] at h
        cases h
    unfold placeOf
    rw [hdevice]
    dsimp only
    rw [lookup_setFile_self]
  · rename_i hother
    unfold placeOf
    rw [lookup_setFile_of_ne hother]

/-- A step leads to a folder whatever the files are, or to where the longer names lead. -/
theorem step_cases (folder : List String) (part : List Char) :
    (∃ fault, ∀ t : FileTree, t.step (.folder folder) part = .error fault) ∨
      (∃ next, ∀ t : FileTree, t.step (.folder folder) part = .ok (.folder next)) ∨
      ∃ next, ∀ t : FileTree, t.step (.folder folder) part = .ok (t.placeOf next) := by
  simp only [step]
  split
  · exact .inr (.inl ⟨_, fun _ => rfl⟩)
  · split
    · exact .inr (.inl ⟨_, fun _ => rfl⟩)
    · split
      · exact .inl ⟨_, fun _ => rfl⟩
      · exact .inr (.inr ⟨_, fun _ => rfl⟩)

/-- Nothing but a folder leads on. -/
theorem eq_nil_of_foldlM_step (h : parts.foldlM t.step place = .ok final)
    (hplace : ∀ folder, place ≠ .folder folder) : parts = [] ∧ final = place := by
  cases parts with
  | nil =>
    cases h
    exact ⟨rfl, rfl⟩
  | cons part rest =>
    rw [List.foldlM_cons] at h
    cases place with
    | folder folder => exact absurd rfl (hplace folder)
    | file | device | free => cases h

/-- What parts lead to is a folder, or where some names lead. In every tree that keeps the folders
they lead to where the same names lead. -/
theorem exists_placeOf_of_foldlM {folder : List String}
    (h : parts.foldlM t.step (.folder folder) = .ok final)
    (hfinal : ∀ folder, final ≠ .folder folder) :
    ∃ names, final = t.placeOf names ∧ ∀ u : FileTree,
      (∀ other next, t.placeOf other = .folder next → u.placeOf other = .folder next) →
        parts.foldlM u.step (.folder folder) = .ok (u.placeOf names) := by
  induction parts generalizing folder with
  | nil =>
    cases h
    exact absurd rfl (hfinal folder)
  | cons part rest ih =>
    simp only [List.foldlM_cons] at h ⊢
    rcases step_cases folder part with ⟨fault, hstep⟩ | ⟨next, hstep⟩ | ⟨other, hstep⟩
    · rw [hstep] at h
      cases h
    · rw [hstep] at h
      obtain ⟨names, hnames, hsame⟩ := ih h
      refine ⟨names, hnames, fun u hfolders => ?_⟩
      rw [hstep]
      exact hsame u hfolders
    · rw [hstep] at h
      -- only a folder leads on, so these are the last parts unless they lead to one
      by_cases hnext : ∃ next, t.placeOf other = .folder next
      · obtain ⟨next, hnext⟩ := hnext
        rw [hnext] at h
        obtain ⟨names, hnames, hsame⟩ := ih h
        refine ⟨names, hnames, fun u hfolders => ?_⟩
        rw [hstep, hfolders other next hnext]
        exact hsame u hfolders
      · obtain ⟨rfl, hlast⟩ := eq_nil_of_foldlM_step h fun next heq => hnext ⟨next, heq⟩
        refine ⟨other, hlast, fun u _ => ?_⟩
        rw [hstep]
        rfl

/-- Parts that lead to the place of a file lead to the file once it is set. -/
theorem foldlM_step_setFile {folder : List String}
    (h : parts.foldlM t.step (.folder folder) = .ok final) (hfinal : final.Holds names) :
    parts.foldlM ({ t with files := setFile names content t.files } : FileTree).step
      (.folder folder) = .ok (.file names content) := by
  obtain ⟨other, hother, hsame⟩ := exists_placeOf_of_foldlM h (by rintro _ rfl; cases hfinal)
  rw [hother] at hfinal
  obtain rfl := names_of_holds hfinal
  have hplaces := @placeOf_setFile t names content hfinal
  -- a folder on the way is not where the file is
  rw [hsame, hplaces, if_pos rfl]
  intro other next hnext
  rw [hplaces, if_neg, hnext]
  rintro rfl
  rw [hnext] at hfinal
  cases hfinal

end Places

/-! ## Writing -/

section Writing

variable {t t' : FileTree} {path text : String} {final : Place} {names : List String}

/-- A path can be looked up if it says something, has no null character and is not too long. -/
theorem checkPath_eq_ok_iff :
    checkPath path = .ok () ↔
      '\x00' ∉ path.toList ∧ path ≠ "" ∧ path.utf8ByteSize ≤ longestPath := by
  have hnull : path.any (· == '\x00') = true ↔ '\x00' ∈ path.toList := by
    rw [String.any, String.contains_bool_eq, List.any_beq', List.contains_iff_mem]
  unfold checkPath
  split
  · rename_i h
    exact ⟨nofun, fun hok => absurd (hnull.1 h) hok.1⟩
  · rename_i h
    rw [hnull] at h
    split
    · rename_i hempty
      exact ⟨nofun, fun hok => absurd (String.isEmpty_iff.1 hempty) hok.2.1⟩
    · rename_i hfull
      rw [String.isEmpty_iff] at hfull
      split
      · rename_i hlong
        exact ⟨nofun, fun hok => absurd hok.2.2 (Nat.not_le.2 hlong)⟩
      · rename_i hshort
        exact ⟨fun _ => ⟨h, hfull, Nat.not_lt.1 hshort⟩, fun _ => rfl⟩

/-- A path is followed exactly if it can be looked up and each of its parts leads on. -/
theorem follow_eq_ok_iff {parts : List (List Char)} :
    t.follow path parts = .ok final ↔
      checkPath path = .ok () ∧ parts.foldlM t.step (.folder (startOf path)) = .ok final := by
  unfold follow
  cases checkPath path with
  | error fault => exact ⟨fun h => (nomatch h), fun h => (nomatch h.1)⟩
  | ok => exact ⟨fun h => ⟨rfl, h⟩, fun h => h.2⟩

/-- The parts looked up to write are those of the path, or the last of them is empty. -/
theorem partsToWrite_cases (path : String) :
    partsToWrite path = FilePath.parts path ∨ ∃ front, partsToWrite path = front ++ [[]] := by
  have hne : FilePath.parts path ≠ [] := Text.splitWhere_ne_nil _ _
  obtain ⟨front, last, hparts⟩ := (List.eq_nil_or_concat _).resolve_left hne
  unfold partsToWrite
  dsimp only
  rw [hparts, List.concat_eq_append, List.getLast?_concat]
  -- a path that ends in a slash has an empty last part, which is kept
  by_cases hlast : last = []
  · exact .inr ⟨_, by rw [hlast]; rfl⟩
  · left
    have hfull : ¬last.isEmpty = true := fun h => hlast (List.isEmpty_iff.1 h)
    rw [List.reverse_concat, List.dropWhile_cons_of_neg hfull, List.drop_one, List.tail_cons,
      List.reverse_reverse]
    rfl

/-- An empty part leads from a folder to itself and from nowhere else. -/
theorem folder_of_foldlM_append {front : List (List Char)} {place : Place}
    (h : (front ++ [[]]).foldlM t.step place = .ok final) : ∃ folder, final = .folder folder := by
  rw [List.foldlM_append] at h
  cases hfront : front.foldlM t.step place with
  | error fault =>
    rw [hfront] at h
    cases h
  | ok last =>
    rw [hfront] at h
    cases last with
    | folder folder =>
      cases h
      exact ⟨folder, rfl⟩
    | file | device | free => cases h

/-- What is looked up to write is found by the whole path, unless it is a folder. -/
theorem partsToWrite_of_follow (h : t.follow path (partsToWrite path) = .ok final)
    (hfinal : ∀ folder, final ≠ .folder folder) : partsToWrite path = FilePath.parts path := by
  refine (partsToWrite_cases path).resolve_right ?_
  rintro ⟨front, hfront⟩
  obtain ⟨folder, heq⟩ := folder_of_foldlM_append (hfront ▸ (follow_eq_ok_iff.1 h).2)
  exact hfinal folder heq

/-- A text that a device takes goes to no file. -/
theorem eq_of_writeDevice {device : Device} (h : t.writeDevice text device = .ok t') :
    t'.folders = t.folders ∧ t'.files = t.files := by
  cases device with
  | sink | standardOutput | standardError =>
    cases h
    exact ⟨rfl, rfl⟩
  | terminal => cases h
  | full =>
    dsimp only [writeDevice] at h
    split at h
    · cases h
      exact ⟨rfl, rfl⟩
    · cases h

/-- Where a path leads depends on the folders and files only. -/
theorem find_congr (hfolders : t'.folders = t.folders) (hfiles : t'.files = t.files) :
    t'.find path = t.find path := by
  have hplace : t'.placeOf = t.placeOf := by
    unfold placeOf
    rw [hfolders, hfiles]
  have hstep : t'.step = t.step := by
    unfold step
    rw [hplace]
  unfold find follow
  rw [hstep]

/-- What a write leaves: the path leads to a file that holds the text and every other file is as
before, or it leads to a device that has taken the text. -/
inductive Written (path text : String) (t t' : FileTree) : Prop where
  | file (names : List String) (leads : t'.find path = .ok (.file names text.toUTF8))
      (others : ∀ other ≠ names, t'.files.lookup other = t.files.lookup other)
      (rest : t'.folders = t.folders ∧ t'.out = t.out ∧ t'.err = t.err)
  | device (device : Device) (leads : t'.find path = .ok (.device device))
      (takes : t.writeDevice text device = .ok t')
      (rest : t'.folders = t.folders ∧ t'.files = t.files)

/-- What a write changes is the file or the device that the path leads to, and nothing else. -/
theorem written_of_write (h : t.write path text = .ok t') : Written path text t t' := by
  unfold write at h
  cases hfollow : t.follow path (partsToWrite path) with
  | error fault =>
    rw [hfollow] at h
    cases h
  | ok final =>
    rw [hfollow] at h
    cases final with
    | folder folder => cases h
    | device device =>
      obtain ⟨hfolders, hfiles⟩ := eq_of_writeDevice h
      have hfind : t.find path = .ok (.device device) := by
        rwa [partsToWrite_of_follow hfollow fun _ => nofun] at hfollow
      exact .device device ((find_congr hfolders hfiles).trans hfind) h ⟨hfolders, hfiles⟩
    | file names | free names =>
      rw [partsToWrite_of_follow hfollow fun _ => nofun] at hfollow
      obtain ⟨hpath, hplace⟩ := follow_eq_ok_iff.1 hfollow
      cases h
      refine .file names (follow_eq_ok_iff.2 ⟨hpath, ?_⟩)
        (fun other hother => lookup_setFile_of_ne hother) ⟨rfl, rfl, rfl⟩
      -- the new file is found by the parts that led to its place
      exact foldlM_step_setFile hplace (by constructor)

end Writing

/-! ## Plain names -/

section Plain

variable {name : String}

/-- A name for a file in the working folder, which is a path by itself. -/
def Plain (name : String) : Prop :=
  name ∉ ["", ".", ".."] ∧ '/' ∉ name.toList ∧ '\x00' ∉ name.toList ∧
    name.utf8ByteSize ≤ longestName

instance : Decidable (Plain name) := inferInstanceAs (Decidable (_ ∧ _))

theorem parts_of_plain (h : Plain name) : FilePath.parts name = [name.toList] := by
  have hslash : ∀ c ∈ name.toList, (c == '/') = false := fun c hc =>
    beq_eq_false_iff_ne.2 fun heq => h.2.1 (heq ▸ hc)
  exact Text.splitWhere_of_forall hslash

theorem startOf_of_plain (h : Plain name) : startOf name = workingFolder := by
  refine if_neg fun hstart => h.2.1 ?_
  exact (String.startsWith_string_iff.1 hstart).subset List.mem_cons_self

/-- A plain name is its own only part, also when it is written. -/
theorem partsToWrite_of_plain (h : Plain name) : partsToWrite name = FilePath.parts name := by
  have hfull : ¬name.toList.isEmpty = true := fun hempty =>
    h.1 (String.toList_eq_nil_iff.1 (List.isEmpty_iff.1 hempty) ▸ List.mem_cons_self)
  unfold partsToWrite
  rw [parts_of_plain h]
  dsimp only
  rw [List.reverse_singleton, List.dropWhile_cons_of_neg hfull]
  rfl

/-- A plain name leads to where it stands in the working folder. -/
theorem find_of_plain (h : Plain name) (t : FileTree) :
    t.find name = .ok (t.placeOf (workingFolder ++ [name])) := by
  obtain ⟨hname, -, hnull, hshort⟩ := id h
  have hempty : name ≠ "" := fun heq => hname (heq ▸ List.mem_cons_self)
  have hlength : name.utf8ByteSize ≤ longestPath := Nat.le_trans hshort (by decide)
  have hother (cs : List Char) (hcs : String.ofList cs ∈ ["", ".", ".."]) :
      (name.toList == cs) = false := by
    refine beq_eq_false_iff_ne.2 fun heq => hname ?_
    rwa [← heq, String.ofList_toList] at hcs
  have hstep : t.step (.folder workingFolder) name.toList =
      .ok (t.placeOf (workingFolder ++ [name])) := by
    simp only [step]
    rw [hother [] (by decide), hother ['.'] (by decide), hother ['.', '.'] (by decide),
      String.ofList_toList, if_neg (Nat.not_lt.2 hshort)]
    rfl
  refine follow_eq_ok_iff.2 ⟨checkPath_eq_ok_iff.2 ⟨hnull, hempty, hlength⟩, ?_⟩
  rw [startOf_of_plain h, parts_of_plain h, List.foldlM_cons, hstep]
  rfl

end Plain

end FileTree

end SpeechTranscript
