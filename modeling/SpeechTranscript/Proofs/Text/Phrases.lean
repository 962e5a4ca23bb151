import Mathlib
import SpeechTranscript.Text.Basic

/-!
# Cutting a text at a phrase

A text is cut at every occurrence of a phrase, from the front to the back. Nothing but the phrase is
lost, and none of the pieces contains it. If the first character of the phrase does not occur in it
again, no two occurrences overlap, and these are the only pieces of which this is true.

* `intercalate_splitAt`: the pieces with the phrase between.
* `lacks_of_mem_splitAt`: the pieces do not contain the phrase.
* `cutsAt_iff`: they are the only such pieces.
-/

namespace SpeechTranscript.Text

section Phrases

variable {first : Char} {phrase tail cs piece rest : List Char} {pieces done : List (List Char)}

/-! ## The pieces with the phrase between -/

/-- One more part at the end comes after one more separator. -/
theorem intercalate_append_singleton {α : Type} {separator last : List α} {parts : List (List α)}
    (h : parts ≠ []) :
    separator.intercalate (parts ++ [last]) = separator.intercalate parts ++ separator ++ last := by
  induction parts with
  | nil => contradiction
  | cons first rest ih =>
    cases rest with
    | nil => rw [List.singleton_append, List.intercalate_cons_cons, List.intercalate_singleton,
        List.intercalate_singleton]
    | cons second rest =>
      rw [List.cons_append, List.cons_append, List.intercalate_cons_cons, ← List.cons_append,
        ih (List.cons_ne_nil _ _), List.intercalate_cons_cons]
      simp only [List.append_assoc]

/-- A last part that is longer makes the whole longer at its end. -/
theorem intercalate_append_append {α : Type} {separator last more : List α}
    {parts : List (List α)} :
    separator.intercalate (parts ++ [last ++ more]) =
      separator.intercalate (parts ++ [last]) ++ more := by
  cases parts with
  | nil => rw [List.nil_append, List.nil_append, List.intercalate_singleton,
      List.intercalate_singleton]
  | cons first rest =>
    rw [intercalate_append_singleton (List.cons_ne_nil _ _),
      intercalate_append_singleton (List.cons_ne_nil _ _)]
    simp only [List.append_assoc]

theorem splitAtFrom_nil {skip : ℕ} :
    splitAtFrom phrase skip piece done [] = done.reverse ++ [piece.reverse] := by
  cases skip <;> rw [splitAtFrom, List.reverse_cons]

/-- There is always a piece, if an empty one. -/
theorem splitAtFrom_ne_nil {skip : ℕ} : splitAtFrom phrase skip piece done cs ≠ [] := by
  fun_induction splitAtFrom phrase skip piece done cs with
  | case1 skip piece done => simp
  | case2 skip piece done c cs ih => exact ih
  | case3 piece done c cs hstarts ih => exact ih
  | case4 piece done c cs hother ih => exact ih

/-- The pieces with the phrase between are what was read, the rest of an occurrence left out. -/
theorem intercalate_splitAtFrom (h : phrase ≠ []) (skip : ℕ) (piece : List Char)
    (done : List (List Char)) :
    phrase.intercalate (splitAtFrom phrase skip piece done cs) =
      phrase.intercalate (done.reverse ++ [piece.reverse]) ++ cs.drop skip := by
  induction cs generalizing skip piece done with
  | nil => rw [splitAtFrom_nil, List.drop_nil, List.append_nil]
  | cons c cs ih =>
    cases skip with
    | succ skip => rw [splitAtFrom, ih, List.drop_succ_cons]
    | zero =>
      rw [splitAtFrom]
      split
      · rename_i hstarts
        obtain ⟨rest, hrest⟩ := List.isPrefixOf_iff_prefix.1 hstarts
        obtain ⟨first, tail, rfl⟩ := List.exists_cons_of_ne_nil h
        rw [List.cons_append] at hrest
        cases hrest
        -- the rest of the phrase is skipped in the next steps
        have hdrop : (tail ++ rest).drop tail.length = rest := List.drop_left
        rw [ih, List.length_cons, Nat.add_sub_cancel, hdrop, List.reverse_cons, List.reverse_nil,
          intercalate_append_singleton (by simp), List.append_nil, List.drop_zero,
          List.append_assoc]
        rfl
      · rw [ih, List.reverse_cons, intercalate_append_append, List.append_assoc, List.drop_zero,
          List.drop_zero]
        rfl

/-- Nothing but the phrase is lost. -/
theorem intercalate_splitAt (h : phrase ≠ []) (cs : List Char) :
    phrase.intercalate (splitAt phrase cs) = cs := by
  rw [splitAt, intercalate_splitAtFrom h]
  rfl

/-! ## What the pieces do not contain -/

/-- No occurrence of the phrase starts in a piece that is followed by the rest. -/
def NoneStarts (phrase piece rest : List Char) : Prop :=
  ∀ back, back <:+ piece → back ≠ [] → ¬ phrase <+: back ++ rest

theorem noneStarts_nil : NoneStarts phrase [] rest := fun _ hback hsome =>
  absurd (List.suffix_nil.1 hback) hsome

/-- A piece in which no phrase starts has none in it. -/
theorem NoneStarts.lacks (h : NoneStarts phrase piece rest) (hsome : phrase ≠ []) :
    ¬ phrase <:+: piece := by
  rintro ⟨front, back, rfl⟩
  refine h (phrase ++ back) ?_ (by simp [hsome]) ?_
  · rw [List.append_assoc]
    exact List.suffix_append _ _
  · rw [List.append_assoc]
    exact List.prefix_append _ _

/-- A character at which no occurrence starts goes to the piece. -/
theorem NoneStarts.concat {c : Char} (h : NoneStarts phrase piece (c :: cs))
    (hc : ¬ phrase <+: c :: cs) : NoneStarts phrase (piece ++ [c]) cs := by
  intro back hback hsome
  obtain rfl | ⟨front, rfl, hfront⟩ := List.suffix_concat_iff.1 hback
  · contradiction
  · rw [List.append_assoc, List.singleton_append]
    by_cases hnil : front = []
    · subst hnil
      exact hc
    · exact h front hfront hnil

/-- Each piece is finished where an occurrence starts, and none has started before. -/
theorem lacks_splitAtFrom (hsome : phrase ≠ []) {skip : ℕ}
    (hpiece : NoneStarts phrase piece.reverse (cs.drop skip))
    (hdone : ∀ p ∈ done, ¬ phrase <:+: p) :
    ∀ p ∈ splitAtFrom phrase skip piece done cs, ¬ phrase <:+: p := by
  induction cs generalizing skip piece done with
  | nil =>
    rw [splitAtFrom_nil]
    refine List.forall_mem_append.2 ⟨fun p hp => hdone p (List.mem_reverse.1 hp), ?_⟩
    exact List.forall_mem_singleton.2 (hpiece.lacks hsome)
  | cons c cs ih =>
    cases skip with
    | succ skip =>
      rw [splitAtFrom]
      exact ih hpiece hdone
    | zero =>
      rw [splitAtFrom]
      split
      · exact ih noneStarts_nil (List.forall_mem_cons.2 ⟨hpiece.lacks hsome, hdone⟩)
      · rename_i hother
        refine ih ?_ hdone
        rw [List.reverse_cons]
        -- no phrase starts here, so the piece grows by a character
        exact hpiece.concat fun hstarts => hother (List.isPrefixOf_iff_prefix.2 hstarts)

theorem lacks_of_mem_splitAt (hsome : phrase ≠ []) (h : piece ∈ splitAt phrase cs) :
    ¬ phrase <:+: piece :=
  lacks_splitAtFrom hsome noneStarts_nil (List.forall_mem_nil _) piece h

/-! ## The only pieces -/

/-- The rest of an occurrence is passed over. -/
theorem splitAtFrom_length (xs : List Char) :
    splitAtFrom phrase xs.length piece done (xs ++ rest) =
      splitAtFrom phrase 0 piece done rest := by
  induction xs with
  | nil => rfl
  | cons x xs ih => rw [List.length_cons, List.cons_append, splitAtFrom, ih]

/-- A text without the phrase is not cut. -/
theorem splitAtFrom_of_lacks (h : ¬ phrase <:+: cs) :
    splitAtFrom phrase 0 piece done cs = done.reverse ++ [piece.reverse ++ cs] := by
  induction cs generalizing piece with
  | nil => rw [splitAtFrom_nil, List.append_nil]
  | cons c cs ih =>
    rw [List.infix_cons_iff, not_or] at h
    obtain ⟨hstarts, hcs⟩ := h
    rw [splitAtFrom, if_neg (by simpa using hstarts), ih hcs, List.reverse_cons, List.append_assoc,
      List.singleton_append]

/-- No occurrence that starts in a piece ends in the phrase behind it. -/
theorem not_prefix_append (honce : first ∉ tail) (hpiece : ¬ first :: tail <:+: piece)
    (hsome : piece ≠ []) : ¬ first :: tail <+: piece ++ (first :: tail ++ rest) := by
  intro hstarts
  rcases List.prefix_or_prefix_of_prefix hstarts (List.prefix_append piece _) with hall | hpart
  · exact hpiece hall.isInfix
  · -- the phrase would go on with its first character where the piece ends
    obtain ⟨more, hmore⟩ := hpart
    obtain ⟨c, cs, rfl⟩ := List.exists_cons_of_ne_nil hsome
    rw [List.cons_append, List.cons.injEq] at hmore
    obtain ⟨rfl, rfl⟩ := hmore
    rw [← List.cons_append, List.prefix_append_right_inj] at hstarts
    cases more with
    | nil => exact hpiece (by rw [List.append_nil])
    | cons d more =>
      rw [List.cons_append, List.cons_append, List.cons_prefix_cons] at hstarts
      exact honce (by simp [hstarts.1])

/-- A piece without the phrase goes up to the next occurrence. -/
theorem splitAtFrom_append (honce : first ∉ tail) (hpiece : ¬ first :: tail <:+: cs) :
    splitAtFrom (first :: tail) 0 piece done (cs ++ (first :: tail ++ rest)) =
      splitAtFrom (first :: tail) 0 [] ((piece.reverse ++ cs) :: done) rest := by
  induction cs generalizing piece with
  | nil =>
    rw [List.nil_append, List.cons_append, splitAtFrom, if_pos (by simp), List.length_cons,
      Nat.add_sub_cancel, splitAtFrom_length, List.append_nil]
  | cons c cs ih =>
    have hother : ¬ first :: tail <+: c :: (cs ++ (first :: tail ++ rest)) :=
      not_prefix_append honce hpiece (List.cons_ne_nil c cs)
    rw [List.infix_cons_iff, not_or] at hpiece
    rw [List.cons_append, splitAtFrom, if_neg (by simpa using hother), ih hpiece.2,
      List.reverse_cons, List.append_assoc, List.singleton_append]

/-- The pieces of a text between the occurrences of a phrase. -/
structure CutsAt (phrase cs : List Char) (pieces : List (List Char)) : Prop where
  ne_nil : pieces ≠ []
  intercalate_eq : phrase.intercalate pieces = cs
  lacks : ∀ piece ∈ pieces, ¬ phrase <:+: piece

/-- Pieces are split again as they were joined. The first character of the phrase comes only once in
it, so it starts only where it was put. -/
theorem splitAtFrom_intercalate (honce : first ∉ tail) (hsome : pieces ≠ [])
    (hpieces : ∀ piece ∈ pieces, ¬ first :: tail <:+: piece) :
    splitAtFrom (first :: tail) 0 [] done ((first :: tail).intercalate pieces) =
      done.reverse ++ pieces := by
  induction pieces generalizing done with
  | nil => contradiction
  | cons piece pieces ih =>
    obtain ⟨hpiece, hrest⟩ := List.forall_mem_cons.1 hpieces
    cases pieces with
    | nil =>
      rw [List.intercalate_singleton]
      exact splitAtFrom_of_lacks hpiece
    | cons next pieces =>
      rw [List.intercalate_cons_cons, List.append_assoc, splitAtFrom_append honce hpiece,
        ih (List.cons_ne_nil _ _) hrest, List.reverse_cons, List.append_assoc]
      rfl

/-- A phrase whose first character does not occur in it again cuts a text in one way. -/
theorem cutsAt_iff (honce : first ∉ tail) :
    CutsAt (first :: tail) cs pieces ↔ pieces = splitAt (first :: tail) cs := by
  constructor
  · rintro ⟨hsome, rfl, hpieces⟩
    rw [splitAt, splitAtFrom_intercalate honce hsome hpieces]
    rfl
  · rintro rfl
    have hphrase : first :: tail ≠ [] := List.cons_ne_nil _ _
    exact ⟨splitAtFrom_ne_nil, intercalate_splitAt hphrase cs,
      fun _ => lacks_of_mem_splitAt hphrase⟩

end Phrases

end SpeechTranscript.Text
