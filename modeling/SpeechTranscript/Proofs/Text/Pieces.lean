import SpeechTranscript.Proofs.Text.Words

/-!
# Pieces between separators

How many pieces a text is cut into tells where its separators stand: one piece has none in it, two
have one between them.

* `splitWhere_append_of_forall`: the piece before the first separator.
* `splitWhere_eq_singleton_iff`, `splitWhere_eq_pair_iff`: texts of one piece and of two.
-/

namespace SpeechTranscript.Text

section Cut

variable {p : Char → Bool} {cs first second : List Char}

/-- Texts are cut as lists are. -/
theorem splitWhere_eq_splitOnP (p : Char → Bool) (cs : List Char) :
    splitWhere p cs = cs.splitOnP p := by
  induction cs with
  | nil => rfl
  | cons c cs ih =>
    rw [List.splitOnP_cons_eq_if_modifyHead, ← ih]
    cases h : p c with
    | true => rw [splitWhere_cons_of_pos h, if_pos rfl]
    | false =>
      obtain ⟨piece, more, hpieces, hnext⟩ := splitWhere_cons_of_neg h
      rw [hnext, hpieces, if_neg Bool.false_ne_true, List.modifyHead_cons]

/-- What stands before the first separator is the first piece. -/
theorem splitWhere_append_of_forall {mark : Char} (hfirst : ∀ c ∈ first, p c = false)
    (hmark : p mark = true) (rest : List Char) :
    splitWhere p (first ++ mark :: rest) = first :: splitWhere p rest := by
  rw [splitWhere_append_cons hmark, splitWhere_of_forall hfirst, List.singleton_append]

theorem splitWhere_eq_singleton_iff :
    splitWhere p cs = [first] ↔ cs = first ∧ ∀ c ∈ cs, p c = false := by
  constructor
  · intro h
    have hlength := congrArg List.length h
    rw [length_splitWhere, List.length_singleton] at hlength
    have hplain : ∀ c ∈ cs, p c = false := fun c hc =>
      Bool.eq_false_of_not_eq_true (List.countP_eq_zero.1 (Nat.succ.inj hlength) c hc)
    rw [splitWhere_of_forall hplain] at h
    exact ⟨List.singleton_inj.1 h, hplain⟩
  · rintro ⟨rfl, hplain⟩
    exact splitWhere_of_forall hplain

/-- Two pieces have one separator between them. -/
theorem splitWhere_eq_pair_iff : splitWhere p cs = [first, second] ↔
    ∃ mark, p mark = true ∧ cs = first ++ mark :: second ∧ (∀ c ∈ first, p c = false) ∧
      ∀ c ∈ second, p c = false := by
  constructor
  · intro h
    -- the front up to the first separator has none
    have hfront : ∀ c ∈ cs.takeWhile (!p ·), p c = false := fun c hc => by
      simpa using List.mem_takeWhile_imp hc
    have hcut := List.takeWhile_append_dropWhile (p := (!p ·)) (l := cs)
    cases hback : cs.dropWhile (!p ·) with
    | nil =>
      rw [hback, List.append_nil] at hcut
      rw [hcut] at hfront
      rw [splitWhere_of_forall hfront] at h
      cases h
    | cons mark rest =>
      have hmark : p mark = true := by
        have hfirst := List.head?_dropWhile_not (!p ·) cs
        rw [hback] at hfirst
        simpa using hfirst
      rw [hback] at hcut
      rw [← hcut, splitWhere_append_of_forall hfront hmark, List.cons.injEq,
        splitWhere_eq_singleton_iff] at h
      obtain ⟨rfl, rfl, hrest⟩ := h
      exact ⟨mark, hmark, hcut.symm, hfront, hrest⟩
  · rintro ⟨mark, hmark, rfl, hfirst, hsecond⟩
    rw [splitWhere_append_of_forall hfirst hmark, splitWhere_of_forall hsecond]

end Cut

end SpeechTranscript.Text
