import SpeechTranscript.Proofs.Json.Number
import SpeechTranscript.Proofs.Transcription.Feeding
import SpeechTranscript.Proofs.Transcription.Merging

/-!
# The names of segments

A segment is named by its number, which is the one that the recognizer gives or else the place of
the utterance in the output. The two ways of numbering know nothing of each other, so the names of a
transcription are distinct exactly when no number that is given is the place of an utterance without
one.

* `numberedId_injective`: a name tells the number.
* `nodup_ids_execute`: when the names are distinct.
-/

namespace SpeechTranscript

namespace Segment

/-- A name tells the number. -/
theorem numberedId_injective : Function.Injective numberedId := by
  intro a b h
  have hdigits : Nat.toDigits 10 a.toNat = Nat.toDigits 10 b.toNat :=
    String.ofList_injective ((String.append_right_inj "segment_").1 h)
  have hnumbers := congrArg Json.digitsNumber hdigits
  rw [Json.digitsNumber_toDigits, Json.digitsNumber_toDigits] at hnumbers
  exact UInt32.toNat_inj.1 hnumbers

end Segment

/-- The number of an utterance at a place in a recognizer's output. -/
def Utterance.numberAt (entry : Utterance × ℕ) : UInt32 :=
  entry.1.sequence.getD (UInt32.ofNat entry.2)

namespace Transcription

/-- An utterance without a number stands at the place that another one has for its number. -/
def Clash (a b : Utterance × ℕ) : Prop :=
  a.1.sequence = none ∧ b.1.sequence = some (UInt32.ofNat a.2)

instance (a b : Utterance × ℕ) : Decidable (Clash a b) := inferInstanceAs (Decidable (_ ∧ _))

section Numbers

variable {utterances : List Utterance} {taken : List (Utterance × ℕ)} {a b : Utterance × ℕ}

/-- Utterances that are given the same number stand at the same place. -/
theorem eq_of_sequence_eq (hnumbers : (utterances.filterMap (·.sequence)).Nodup)
    (ha : a ∈ utterances.zipIdx) (hb : b ∈ utterances.zipIdx) {number : UInt32}
    (ha' : a.1.sequence = some number) (hb' : b.1.sequence = some number) : a = b := by
  rw [List.Nodup, List.pairwise_filterMap, List.pairwise_iff_getElem] at hnumbers
  obtain ⟨u, i⟩ := a
  obtain ⟨v, j⟩ := b
  obtain ⟨hi, hu⟩ := List.getElem?_eq_some_iff.1 (List.mk_mem_zipIdx_iff_getElem?.1 ha)
  obtain ⟨hj, hv⟩ := List.getElem?_eq_some_iff.1 (List.mk_mem_zipIdx_iff_getElem?.1 hb)
  rcases lt_trichotomy i j with hlt | rfl | hgt
  · exact absurd rfl (hnumbers i j hi hj hlt _ (hu ▸ ha') _ (hv ▸ hb'))
  · rw [← hu, ← hv]
  · exact absurd rfl (hnumbers j i hj hi hgt _ (hv ▸ hb') _ (hu ▸ ha'))

/-- As long as the places are numbers of 32 bits, they are told apart by them. -/
theorem eq_of_place_eq (hlength : utterances.length < 2 ^ 32) (ha : a ∈ utterances.zipIdx)
    (hb : b ∈ utterances.zipIdx) (h : UInt32.ofNat a.2 = UInt32.ofNat b.2) : a = b := by
  obtain ⟨u, i⟩ := a
  obtain ⟨v, j⟩ := b
  have hu := List.mk_mem_zipIdx_iff_getElem?.1 ha
  have hv := List.mk_mem_zipIdx_iff_getElem?.1 hb
  obtain ⟨hi, -⟩ := List.getElem?_eq_some_iff.1 hu
  obtain ⟨hj, -⟩ := List.getElem?_eq_some_iff.1 hv
  have hplaces := congrArg UInt32.toNat h
  rw [UInt32.toNat_ofNat_of_lt' (hi.trans hlength), UInt32.toNat_ofNat_of_lt' (hj.trans hlength)]
    at hplaces
  obtain rfl : i = j := hplaces
  rw [hu] at hv
  rw [Option.some.inj hv]

/-- The numbers of utterances are distinct exactly when none of them clash. -/
theorem nodup_numberAt_iff (hnumbers : (utterances.filterMap (·.sequence)).Nodup)
    (hlength : utterances.length < 2 ^ 32) (htaken : taken.Sublist utterances.zipIdx) :
    (taken.map Utterance.numberAt).Nodup ↔ ∀ a ∈ taken, ∀ b ∈ taken, ¬ Clash a b := by
  have hplaces : taken.Nodup :=
    List.Nodup.sublist htaken (.of_map Prod.snd (List.nodup_zipIdx_map_snd utterances))
  rw [List.nodup_map_iff_inj_on hplaces]
  constructor
  · rintro hinjective a ha b hb ⟨hnone, hsome⟩
    have hsame : Utterance.numberAt a = Utterance.numberAt b := by
      rw [Utterance.numberAt, Utterance.numberAt, hnone, hsome]
      rfl
    rw [hinjective a ha b hb hsame, hsome] at hnone
    contradiction
  · intro hapart a ha b hb hsame
    have ha' := htaken.subset ha
    have hb' := htaken.subset hb
    rw [Utterance.numberAt, Utterance.numberAt] at hsame
    -- both are numbered, or neither, or one number is the place of the other utterance
    cases hanumber : a.1.sequence with
    | some number =>
      cases hbnumber : b.1.sequence with
      | some number' =>
        rw [hanumber, hbnumber] at hsame
        cases hsame
        exact eq_of_sequence_eq hnumbers ha' hb' hanumber hbnumber
      | none =>
        rw [hanumber, hbnumber] at hsame
        exact absurd ⟨hbnumber, hanumber.trans (congrArg some hsame)⟩ (hapart b hb a ha)
    | none =>
      cases hbnumber : b.1.sequence with
      | some number' =>
        rw [hanumber, hbnumber] at hsame
        exact absurd ⟨hanumber, hbnumber.trans (congrArg some hsame.symm)⟩ (hapart a ha b hb)
      | none =>
        rw [hanumber, hbnumber] at hsame
        exact eq_of_place_eq hlength ha' hb' hsame

end Numbers

section Execute

variable {s : Session} {options : Options} {utterances : List Utterance}

/-- The names of the segments that utterances have become are their numbers. -/
theorem Taken.map_id_eq {number : ℕ} {taken : List (Utterance × ℕ)} {added : List Segment}
    (h : Taken number utterances taken added) :
    added.map (·.id) = (taken.map Utterance.numberAt).map Segment.numberedId := by
  obtain ⟨-, hsegments⟩ := h
  induction hsegments with
  | nil => rfl
  | cons hfit _ ih =>
    rw [List.map_cons, ih, (Utterance.toSegment_eq_ok hfit).1]
    rfl

/-- Where nothing is merged, the segments of a transcription whose given numbers are distinct have
distinct names exactly when none of the utterances that have made it into the session clash. -/
theorem nodup_ids_execute (hs : s.status = .pending) (hmerge : options.mergeAdjacent = false)
    (hnumbers : (utterances.filterMap (·.sequence)).Nodup) (hlength : utterances.length < 2 ^ 32)
    (listener : Listener) (started finished : Instant) :
    let segments :=
      (execute options (.ok utterances) listener started finished s).course.session.segments
    (∃ taken added, Taken 0 utterances taken added ∧ segments.Perm added ∧
      ((segments.map (·.id)).Nodup ↔ ∀ a ∈ taken, ∀ b ∈ taken, ¬ Clash a b)) ∧
    ((∀ a ∈ utterances.zipIdx, ∀ b ∈ utterances.zipIdx, ¬ Clash a b) →
      (segments.map (·.id)).Nodup) := by
  intro segments
  obtain ⟨taken, added, timeline, htaken, hperm, htimeline⟩ :=
    exists_taken_of_execute hs options utterances listener started finished
  -- without merging the session holds what was added
  have hsegments : segments.Perm added := by
    rcases htimeline with hsame | ⟨hmerged, -⟩
    · rw [show segments = timeline from hsame]
      exact hperm
    · rw [hmerge] at hmerged
      contradiction
  -- names are as distinct as the numbers they are made of
  have hiff : (segments.map (·.id)).Nodup ↔ ∀ a ∈ taken, ∀ b ∈ taken, ¬ Clash a b := by
    rw [(hsegments.map _).nodup_iff, htaken.map_id_eq,
      List.nodup_map_iff Segment.numberedId_injective,
      nodup_numberAt_iff hnumbers hlength htaken.sublist]
  refine ⟨⟨taken, added, htaken, hsegments, hiff⟩, fun hapart => hiff.2 fun a ha b hb => ?_⟩
  exact hapart a (htaken.sublist.subset ha) b (htaken.sublist.subset hb)

/-- A number that is not the place of the utterance without one. -/
def numberedApart : List Utterance := [utterance 0 1 "hello" (some 7), utterance 1 2 "world" none]

theorem nodup_ids_numberedApart :
    ((transcribed (merging .standard false) numberedApart ⟨0⟩ ⟨1⟩
      (.new "a" "audio" .auto)).segments.map (·.id)).Nodup :=
  (nodup_ids_execute rfl rfl (by decide) (by decide) (fun _ => true) ⟨0⟩ ⟨1⟩).2 (by decide)

/-- A number that is. -/
def numberedAlike : List Utterance := [utterance 0 1 "hello" (some 1), utterance 1 2 "world" none]

theorem not_nodup_ids_numberedAlike :
    (numberedAlike.filterMap (·.sequence)).Nodup ∧ numberedAlike.length < 2 ^ 32 ∧
      ¬ ((transcribed (merging .standard false) numberedAlike ⟨0⟩ ⟨1⟩
        (.new "a" "audio" .auto)).segments.map (·.id)).Nodup := by
  decide +kernel

end Execute

end Transcription

end SpeechTranscript
