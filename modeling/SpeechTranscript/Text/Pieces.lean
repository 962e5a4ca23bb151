import SpeechTranscript.Text.Blank

/-!
# Pieces of a text

Cutting a text at characters of a class or at a phrase, and finding a phrase in it.
-/

namespace SpeechTranscript.Text

/-- The pieces between the characters that `p` picks; always one more than there are such
characters. -/
def splitWhere (p : Char → Bool) (cs : List Char) : List (List Char) :=
  cs.foldr (fun c pieces =>
    if p c then [] :: pieces
    else match pieces with
      | piece :: more => (c :: piece) :: more
      -- never so: see `splitWhere_ne_nil`
      | [] => [[c]]) [[]]

/-- The words of a text: its pieces between blanks, less the empty ones. -/
def words (cs : List Char) : List (List Char) :=
  (splitWhere isBlank cs).filter (!·.isEmpty)

/-- Reads on in a text that is cut at `phrase`: `skip` more characters of an occurrence are to be
passed over, `piece` is the piece so far and `done` the finished pieces, both reversed. -/
def splitAtFrom (phrase : List Char) :
    (skip : Nat) → (piece : List Char) → (done : List (List Char)) → List Char → List (List Char)
  | _, piece, done, [] => (piece.reverse :: done).reverse
  | skip + 1, piece, done, _ :: cs => splitAtFrom phrase skip piece done cs
  | 0, piece, done, c :: cs =>
    if phrase.isPrefixOf (c :: cs) then
      splitAtFrom phrase (phrase.length - 1) [] (piece.reverse :: done) cs
    else splitAtFrom phrase 0 (c :: piece) done cs

def splitAt (phrase cs : List Char) : List (List Char) :=
  splitAtFrom phrase 0 [] [] cs

def hasPhrase (phrase : List Char) : List Char → Bool
  | [] => phrase.isEmpty
  | c :: cs => phrase.isPrefixOf (c :: cs) || hasPhrase phrase cs

/-! ## Laws of cutting at characters -/

section SplitWhere

variable {p : Char → Bool} {cs : List Char}

theorem splitWhere_nil : splitWhere p [] = [[]] := rfl

theorem splitWhere_cons_of_pos {c : Char} (h : p c = true) :
    splitWhere p (c :: cs) = [] :: splitWhere p cs := by
  rw [splitWhere, List.foldr_cons, if_pos h]
  rfl

theorem splitWhere_ne_nil (p : Char → Bool) (cs : List Char) : splitWhere p cs ≠ [] := by
  cases cs with
  | nil => exact List.cons_ne_nil _ _
  | cons c cs =>
    rw [splitWhere, List.foldr_cons]
    split
    · exact List.cons_ne_nil _ _
    · split <;> exact List.cons_ne_nil _ _

/-- Any other character goes in front of the first piece. -/
theorem splitWhere_cons_of_neg {c : Char} (h : p c = false) :
    ∃ piece more, splitWhere p cs = piece :: more ∧
      splitWhere p (c :: cs) = (c :: piece) :: more := by
  obtain ⟨piece, more, pieces⟩ := List.exists_cons_of_ne_nil (splitWhere_ne_nil p cs)
  refine ⟨piece, more, pieces, ?_⟩
  rw [splitWhere] at pieces ⊢
  rw [List.foldr_cons, if_neg (by simp [h]), pieces]

/-- A text without separators is not cut. -/
theorem splitWhere_of_forall (h : ∀ c ∈ cs, p c = false) : splitWhere p cs = [cs] := by
  induction cs with
  | nil => rfl
  | cons c cs ih =>
    obtain ⟨hc, hcs⟩ := List.forall_mem_cons.1 h
    obtain ⟨piece, more, hpieces, hnext⟩ := splitWhere_cons_of_neg hc
    rw [ih hcs] at hpieces
    cases hpieces
    exact hnext

/-- There is one piece more than there are separators. -/
theorem length_splitWhere : (splitWhere p cs).length = cs.countP p + 1 := by
  induction cs with
  | nil => rfl
  | cons c cs ih =>
    cases h : p c with
    | true =>
      rw [splitWhere_cons_of_pos h, List.length_cons, ih, List.countP_cons_of_pos h]
    | false =>
      obtain ⟨piece, more, pieces, next⟩ := splitWhere_cons_of_neg h
      rw [next, List.countP_cons_of_neg (by simp [h]), ← ih, pieces]
      rfl

/-- Nothing but the separators is lost. -/
theorem flatten_splitWhere : (splitWhere p cs).flatten = cs.filter (!p ·) := by
  induction cs with
  | nil => rfl
  | cons c cs ih =>
    cases h : p c with
    | true =>
      rw [splitWhere_cons_of_pos h, List.filter_cons_of_neg (by simp [h]), ← ih]
      rfl
    | false =>
      obtain ⟨piece, more, pieces, next⟩ := splitWhere_cons_of_neg h
      rw [next, List.filter_cons_of_pos (by simp [h]), ← ih, pieces]
      rfl

/-- No piece holds a separator. -/
theorem not_of_mem_splitWhere {piece : List Char} {c : Char} (hp : piece ∈ splitWhere p cs)
    (hc : c ∈ piece) : p c = false := by
  have kept : c ∈ (splitWhere p cs).flatten := List.mem_flatten.2 ⟨piece, hp, hc⟩
  rw [flatten_splitWhere, List.mem_filter] at kept
  simpa using kept.2

end SplitWhere

end SpeechTranscript.Text
