import Mathlib
import SpeechTranscript.Text.Basic

/-!
# Trimmed texts and how they are joined

A text without blanks around it stays as it is when it is trimmed. Two such texts are joined with a
space between, or not at all if one is missing; it makes no difference in which order more than two
are joined.

* `trimmed_trim`: trimming leaves no blanks.
* `trimmed_append_space`: what trimming makes of two trimmed texts with a space between.
* `spaced_assoc`: the joining of texts is associative.
-/

namespace SpeechTranscript.Text

/-! ## No blanks around -/

/-- There are no blanks at the start and at the end. -/
def Trimmed (cs : List Char) : Prop := trimStart cs = cs ∧ trimEnd cs = cs

instance (cs : List Char) : Decidable (Trimmed cs) := inferInstanceAs (Decidable (_ ∧ _))

section Trimmed

variable {a b cs : List Char}

theorem Trimmed.trim_eq (h : Trimmed cs) : trim cs = cs := by rw [trim, h.1, h.2]

/-- Trimming leaves no blanks. -/
theorem trimmed_trim (cs : List Char) : Trimmed (trim cs) := by
  constructor
  · -- the first character is still the one that no blank stood before
    rw [trimStart, List.dropWhile_eq_self_iff]
    intro hpos
    have hfront : trim cs <+: trimStart cs := List.rdropWhile_prefix isBlank (l := trimStart cs)
    have hlen : 0 < (trimStart cs).length := hpos.trans_le hfront.length_le
    rw [hfront.getElem hpos]
    exact List.dropWhile_get_zero_not isBlank cs hlen
  · exact List.rdropWhile_idempotent isBlank (trimStart cs)

/-- With trimmed texts at both ends there are no blanks around. -/
theorem Trimmed.append (ha : Trimmed a) (hb : Trimmed b) (hane : a ≠ []) (hbne : b ≠ [])
    (between : List Char) : Trimmed (a ++ between ++ b) := by
  constructor
  · rw [trimStart, List.append_assoc, List.dropWhile_append, ← trimStart, ha.1,
      if_neg (by simpa using hane)]
  · have hend := congrArg List.reverse hb.2
    rw [trimEnd, List.reverse_reverse] at hend
    rw [trimEnd, List.reverse_append, List.dropWhile_append, hend, if_neg (by simpa using hbne),
      ← List.reverse_append, List.reverse_reverse]

/-- A trimmed text of blanks only is no text. -/
theorem Trimmed.eq_nil (h : Trimmed cs) (hblank : allBlank cs = true) : cs = [] := by
  rw [← h.1, trimStart, List.dropWhile_eq_nil_iff]
  exact fun c hc => List.all_eq_true.1 hblank c hc

/-- Trimming takes nothing but blanks. -/
theorem allBlank_trim (cs : List Char) : allBlank (trim cs) = allBlank cs := by
  rw [Bool.eq_iff_iff]
  constructor
  · intro hblank
    have hnil : (trimStart cs).rdropWhile isBlank = [] := (trimmed_trim cs).eq_nil hblank
    have hstart : trimStart (trimStart cs) = [] :=
      List.dropWhile_eq_nil_iff.2 (List.rdropWhile_eq_nil_iff.1 hnil)
    rw [trimStart, trimStart, List.dropWhile_idempotent] at hstart
    exact List.all_eq_true.2 (List.dropWhile_eq_nil_iff.1 hstart)
  · intro hblank
    have hnil : trimStart cs = [] := List.dropWhile_eq_nil_iff.2 (List.all_eq_true.1 hblank)
    rw [trim, hnil]
    rfl

/-- What trimming takes stands before and after what it leaves. -/
theorem exists_eq_append_trim (cs : List Char) : ∃ before after,
    cs = before ++ trim cs ++ after ∧ allBlank before = true ∧ allBlank after = true := by
  refine ⟨cs.takeWhile isBlank, (trimStart cs).rtakeWhile isBlank, ?_, ?_, ?_⟩
  · have hend : (trimStart cs).rdropWhile isBlank ++ (trimStart cs).rtakeWhile isBlank =
        trimStart cs := List.rdropWhile_append_rtakeWhile
    rw [List.append_assoc]
    exact (List.takeWhile_append_dropWhile (p := isBlank)).symm.trans
      (congrArg (cs.takeWhile isBlank ++ ·) hend.symm)
  · exact List.all_eq_true.2 fun c hc => List.mem_takeWhile_imp hc
  · exact List.all_eq_true.2 fun c hc => List.mem_rtakeWhile_imp hc

/-- Blanks around a trimmed text are what trimming takes. -/
theorem Trimmed.trim_append {before after : List Char} (h : Trimmed cs) (hne : cs ≠ [])
    (hbefore : allBlank before = true) (hafter : allBlank after = true) :
    trim (before ++ cs ++ after) = cs := by
  have hstart : trimStart (before ++ cs ++ after) = cs ++ after := by
    rw [trimStart, List.append_assoc,
      List.dropWhile_append_of_pos fun c hc => List.all_eq_true.1 hbefore c hc,
      List.dropWhile_append, ← trimStart, h.1, if_neg (by simpa using hne)]
  rw [trim, hstart, trimEnd, List.reverse_append, List.dropWhile_append_of_pos fun c hc =>
    List.all_eq_true.1 hafter c (List.mem_reverse.1 hc)]
  exact h.2

/-- A text with a blank behind it. -/
theorem Trimmed.trim_append_space (h : Trimmed cs) : trim (cs ++ [' ']) = cs := by
  have hspace : trimEnd (cs ++ [' ']) = cs := by
    rw [trimEnd, List.reverse_append, List.reverse_singleton, List.singleton_append,
      List.dropWhile_cons_of_pos (by decide)]
    exact h.2
  rw [trim, trimStart, List.dropWhile_append, ← trimStart, h.1]
  split
  · rename_i hnil
    rw [List.isEmpty_iff.1 hnil]
    rfl
  · exact hspace

/-- A text with a blank before it. -/
theorem Trimmed.trim_cons_space (h : Trimmed cs) : trim (' ' :: cs) = cs := by
  rw [trim, trimStart, List.dropWhile_cons_of_pos (by decide)]
  exact h.trim_eq

end Trimmed

theorem trimmed_toList (s : String) : Trimmed (trimmed s).toList := by
  rw [trimmed, String.toList_ofList]
  exact trimmed_trim _

/-! ## With a space between -/

/-- Two texts with a space between, or the one that is there. -/
def spaced (a b : String) : String :=
  if a = "" then b else if b = "" then a else a ++ " " ++ b

section Spaced

variable {a b c : String}

@[simp] theorem spaced_empty_left (b : String) : spaced "" b = b := rfl

/-- Nothing behind needs no space. -/
@[simp] theorem spaced_empty_right (a : String) : spaced a "" = a := by
  unfold spaced
  split
  · rename_i h
    exact h.symm
  · rfl

theorem spaced_of_ne (ha : a ≠ "") (hb : b ≠ "") : spaced a b = a ++ " " ++ b := by
  rw [spaced, if_neg ha, if_neg hb]

/-- Nothing comes of nothing only. -/
theorem spaced_eq_empty_iff : spaced a b = "" ↔ a = "" ∧ b = "" := by
  unfold spaced
  split
  · rename_i ha
    simp [ha]
  · rename_i ha
    split <;> simp [ha]

/-- It does not matter which two of three texts are joined first. -/
theorem spaced_assoc (a b c : String) : spaced (spaced a b) c = spaced a (spaced b c) := by
  by_cases ha : a = ""
  · rw [ha, spaced_empty_left, spaced_empty_left]
  by_cases hb : b = ""
  · rw [hb, spaced_empty_left, spaced_empty_right]
  by_cases hc : c = ""
  · rw [hc, spaced_empty_right, spaced_empty_right]
  have hab : spaced a b ≠ "" := fun h => ha (spaced_eq_empty_iff.1 h).1
  have hbc : spaced b c ≠ "" := fun h => hb (spaced_eq_empty_iff.1 h).1
  rw [spaced_of_ne hab hc, spaced_of_ne ha hbc, spaced_of_ne ha hb, spaced_of_ne hb hc]
  simp only [String.append_assoc]

/-- Trimming two trimmed texts with a space between is joining them. -/
theorem trimmed_append_space (ha : Trimmed a.toList) (hb : Trimmed b.toList) :
    trimmed (a ++ " " ++ b) = spaced a b := by
  have hchars : (a ++ " " ++ b).toList = a.toList ++ [' '] ++ b.toList := by
    rw [String.toList_append, String.toList_append]
    rfl
  rw [trimmed, hchars]
  by_cases hane : a = ""
  · subst hane
    rw [spaced_empty_left, show "".toList ++ [' '] ++ b.toList = ' ' :: b.toList from rfl,
      hb.trim_cons_space, String.ofList_toList]
  by_cases hbne : b = ""
  · subst hbne
    rw [spaced_empty_right, show "".toList = [] from rfl, List.append_nil, ha.trim_append_space,
      String.ofList_toList]
  have htrimmed := ha.append hb (by simpa using hane) (by simpa using hbne) [' ']
  rw [spaced_of_ne hane hbne, htrimmed.trim_eq, ← hchars, String.ofList_toList]

end Spaced

end SpeechTranscript.Text
