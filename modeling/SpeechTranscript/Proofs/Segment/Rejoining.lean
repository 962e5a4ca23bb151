import SpeechTranscript.Proofs.Segment.Halves
import SpeechTranscript.Proofs.Segment.Union
import SpeechTranscript.Proofs.Timeline.Adjacency

/-!
# Halves that are put together again

The halves of a segment touch each other, so they can be merged. The first half leads, also where
the numbers have come to their end and both halves have the same one. The space between their texts
takes the place of the blanks that were trimmed at the cut. It is one character more than before if
the cut was inside a word, and this is why the text must be shorter than the longest one.

* `length_rejoined_le`: how long the text becomes.
* `rejoined_split`: what the merged halves share with the segment that was split.
-/

namespace SpeechTranscript.Segment

open Text

/-- No number is followed by a lower one, also where the last one is followed by itself. -/
theorem le_nextSequence (n : UInt32) : n ≤ nextSequence n := by
  unfold nextSequence
  split
  · exact UInt32.le_refl n
  · rename_i hnext
    have hlt := n.toNat_lt
    rw [← UInt32.toNat_inj] at hnext
    simp only [UInt32.le_iff_toNat_le, UInt32.toNat_add, UInt32.toNat_one,
      UInt32.toNat_zero] at hnext ⊢
    omega

section Rejoined

variable {s first second : Segment} {point : Duration} (h : s.split point = .ok (first, second))
include h

/-! ## Whether they can be merged -/

theorem mergeable_split : first.mergeable second adjacencyGap = true := by
  obtain ⟨⟨-, hstop⟩, hstart, -⟩ := ends_of_split h
  have hadjacent : first.isAdjacent second adjacencyGap = true :=
    isAdjacent_of_touching (hstop.trans hstart.symm) (by decide +kernel)
  rw [mergeable, hadjacent, Bool.or_true]

/-- The first half leads. -/
theorem inOrder_split : first.inOrder second = (first, second) := by
  obtain ⟨hsequence, hsequence'⟩ := sequence_of_split h
  refine if_pos ?_
  rw [hsequence, hsequence']
  exact le_nextSequence _

/-! ## Their text -/

theorem chars_rejoined :
    (first.joinedText second).chars = trim (s.head point ++ ' ' :: s.tail point) := by
  obtain ⟨hfirst, hsecond, -⟩ := chars_of_split h
  rw [joinedText, inOrder_split h, ← hfirst, ← hsecond]
  exact chars_joinTexts _ _

theorem words_rejoined : words (first.joinedText second).chars =
    words first.text.chars ++ words second.text.chars := by
  obtain ⟨hfirst, hsecond, -⟩ := chars_of_split h
  rw [chars_rejoined h, words_trim, words_append_blank (by decide), hfirst, hsecond]

/-- The text gets no longer than by the space between its halves. -/
theorem length_rejoined_le :
    (first.joinedText second).charCount ≤ s.text.charCount + 1 := by
  have hcount : (first.joinedText second).charCount = (first.joinedText second).chars.length :=
    String.length_toList.symm
  have hcount' : s.text.charCount = s.text.chars.length := String.length_toList.symm
  rw [hcount, hcount', chars_rejoined h]
  -- trimming takes only away, so the space is all that is added
  calc (trim (s.head point ++ ' ' :: s.tail point)).length
      ≤ (s.head point ++ ' ' :: s.tail point).length := length_trim_le _
    _ = (s.head point).length + (s.tail point).length + 1 := by
      rw [List.length_append, List.length_cons, Nat.add_assoc]
    _ ≤ (s.text.chars.take (s.cutAt point)).length +
          (s.text.chars.drop (s.cutAt point)).length + 1 :=
      Nat.add_le_add_right (Nat.add_le_add (length_trim_le _) (length_trim_le _)) 1
    _ = s.text.chars.length + 1 := by rw [← List.length_append, List.take_append_drop]

end Rejoined

/-! ## Merging them -/

/-- What a segment made of two halves shares with the one that was split. -/
structure Rejoined (s first second merged : Segment) : Prop where
  start_eq : merged.start = s.start
  stop_eq : merged.stop = s.stop
  sequence_eq : merged.sequence = s.sequence
  speaker_eq : merged.speaker = s.speaker
  language_eq : merged.language = s.language
  /-- The words of the halves, so those of the whole unless it was cut inside a word. -/
  words_eq : words merged.text.chars = words first.text.chars ++ words second.text.chars
  filter_eq : merged.text.chars.filter (!isBlank ·) = s.text.chars.filter (!isBlank ·)

section Merge

variable {s first second : Segment} {point : Duration}

/-- A segment that was split is put together again, if there is room for a space more in its
text. -/
theorem rejoined_split (hroom : s.text.charCount < longestText)
    (h : s.split point = .ok (first, second)) :
    ∃ merged, first.merge second = .ok merged ∧ Rejoined s first second merged := by
  have hmerged : first.merge second = .ok (first.union second) :=
    mergeWithin_eq_ok_iff.2 ⟨mergeable_split h, (length_rejoined_le h).trans hroom, rfl⟩
  -- the first half leads, as its number is not the greater one
  have hlead := inOrder_split h
  obtain ⟨⟨hstart, hstop⟩, -⟩ := split_eq_ok_iff.1 h
  obtain ⟨⟨hstart_first, hstop_first⟩, hstart_second, hstop_second⟩ := ends_of_split h
  obtain ⟨⟨hspeaker, hlanguage, -⟩, -⟩ := List.forall_mem_cons.1 (voice_of_split h)
  refine ⟨first.union second, hmerged, ?_, ?_, ?_, ?_, ?_, words_rejoined h, ?_⟩
  · show Duration.earlier first.start second.start = s.start
    rw [hstart_first, hstart_second]
    exact Duration.earlier_eq_left _ _ (Duration.le_of_lt hstart)
  · show Duration.later first.stop second.stop = s.stop
    rw [hstop_first, hstop_second]
    exact Duration.later_eq_right _ _ hstop
  · show (first.inOrder second).1.sequence = s.sequence
    rw [hlead]
    exact (sequence_of_split h).1
  · show (first.inOrder second).1.speaker = s.speaker
    rw [hlead]
    exact hspeaker
  · show (first.inOrder second).1.language = s.language
    rw [hlead]
    exact hlanguage
  · show (first.joinedText second).chars.filter (!isBlank ·) = _
    rw [← (halved_split h).filter_eq, List.filter_append, ← flatten_words, words_rejoined h,
      List.flatten_append, flatten_words, flatten_words]

/-- Two words in a second, with the last number there is. -/
def lastNumbered : Segment := { twoWords with sequence := 0xFFFFFFFF }

theorem rejoined_lastNumbered : lastNumbered.text.charCount < longestText ∧
    ∃ first second, lastNumbered.split pastBlank = .ok (first, second) ∧
      ∃ merged, first.merge second = .ok merged ∧ Rejoined lastNumbered first second merged := by
  have hsome : (lastNumbered.split pastBlank).isOk = true := by decide +kernel
  refine ⟨by decide +kernel, ?_⟩
  cases hsplit : lastNumbered.split pastBlank with
  | ok halves => exact ⟨halves.1, halves.2, rfl, rejoined_split (by decide +kernel) hsplit⟩
  | error refusal =>
    rw [hsplit] at hsome
    contradiction

end Merge

end SpeechTranscript.Segment
