/-!
# Search by halving

The place in a list where a property stops to hold, found by looking at the middle of what is left.
The search takes for granted that the property holds of the front of the list and fails of the rest;
`partitionPoint_append` says what it finds then, and `partitionPoint_le_length` what is true of any
list.
-/

namespace SpeechTranscript

/-- The place between `low` and `high` where `p` stops to hold. -/
def bisect (p : Nat → Bool) (low high : Nat) : Nat :=
  if low < high then
    let middle := low + (high - low) / 2
    if p middle then bisect p (middle + 1) high else bisect p low middle
  else low
termination_by high - low
decreasing_by all_goals omega

/-- How far into a list `p` holds. -/
def partitionPoint {α : Type} (p : α → Bool) (xs : List α) : Nat :=
  let cells := xs.toArray
  bisect (fun i => cells[i]?.any p) 0 cells.size

section Bisect

variable {p : Nat → Bool} {low high place : Nat}

theorem bisect_le (h : low ≤ high) : bisect p low high ≤ high := by
  fun_induction bisect p low high with
  | case1 low high lt middle holds ih => exact ih (by omega)
  | case2 low high lt middle fails ih => exact Nat.le_trans (ih (by omega)) (by omega)
  | case3 low high done => exact h

/-- If `p` holds up to a place and fails from there on, the search finds that place. -/
theorem bisect_eq (hlow : low ≤ place) (hhigh : place ≤ high)
    (holds : ∀ i, low ≤ i → i < place → p i = true)
    (fails : ∀ i, place ≤ i → i < high → p i = false) : bisect p low high = place := by
  fun_induction bisect p low high with
  | case1 low high lt middle hmiddle ih =>
    -- `p` holds in the middle, so the place lies behind it
    have behind : middle < place := by
      refine Nat.lt_of_not_le fun le => ?_
      rw [fails middle le (by omega)] at hmiddle
      contradiction
    exact ih behind hhigh (fun i hi => holds i (by omega)) fails
  | case2 low high lt middle hmiddle ih =>
    have before : place ≤ middle := by
      refine Nat.le_of_not_lt fun gt => hmiddle ?_
      exact holds middle (by omega) gt
    exact ih hlow before holds (fun i hi lt => fails i hi (by omega))
  | case3 low high done => omega

end Bisect

section PartitionPoint

variable {α : Type} {p : α → Bool} {xs front back : List α}

theorem partitionPoint_le_length : partitionPoint p xs ≤ xs.length :=
  bisect_le (Nat.zero_le _)

/-- On a list parted by `p` the search finds where the second part begins. -/
theorem partitionPoint_append (hfront : ∀ a ∈ front, p a = true) (hback : ∀ a ∈ back, p a = false) :
    partitionPoint p (front ++ back) = front.length := by
  refine bisect_eq (Nat.zero_le _) (by simp) ?_ ?_
  · intro i _ hi
    rw [List.getElem?_toArray, List.getElem?_append_left hi, List.getElem?_eq_getElem hi]
    exact hfront _ (List.getElem_mem hi)
  · intro i hi lt
    rw [List.size_toArray, List.length_append] at lt
    rw [List.getElem?_toArray, List.getElem?_append_right hi,
      List.getElem?_eq_getElem (by omega)]
    exact hback _ (List.getElem_mem _)

end PartitionPoint

end SpeechTranscript
