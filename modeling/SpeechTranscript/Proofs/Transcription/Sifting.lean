import SpeechTranscript.Proofs.Timeline.Separation
import SpeechTranscript.Proofs.Transcription.Feeding
import SpeechTranscript.Proofs.Transcription.Merging

/-!
# Leaving out what overlaps

A transcription can be told to leave out the segments that conflict with an accepted one. Then none
of them ends it, and what is left out is told by the utterances alone: an utterance is left out
exactly if its segment conflicts with that of an earlier one that was not. Nothing is reported of
it.

* `LeftOut`: the utterances that are left out, by those that are taken.
* `Fed.exists_leftOut`: what one utterance after the other does to them.
* `sifted_execute`: what is left of a recognizer's output in the end.
-/

namespace SpeechTranscript

/-! ## Utterances and conflicts -/

namespace Utterance

/-- An utterance at its place in a recognizer's output, and the segment that it becomes. -/
def Becomes (entry : Utterance × ℕ) (segment : Segment) : Prop :=
  entry.1.toSegment (UInt32.ofNat entry.2) = .ok segment

theorem Becomes.unique {entry : Utterance × ℕ} {segment other : Segment}
    (h : Becomes entry segment) (h' : Becomes entry other) : segment = other :=
  Except.ok.inj (h.symm.trans h')

/-- Whether an utterance becomes a segment does not depend on the number it is given. -/
theorem exists_toSegment {utterance : Utterance} {number : UInt32} {segment : Segment}
    (h : utterance.toSegment number = .ok segment) (other : UInt32) :
    ∃ segment', utterance.toSegment other = .ok segment' := by
  obtain ⟨start, hstart, h⟩ := bind_eq_ok_iff.1 h
  obtain ⟨stop, hstop, h⟩ := bind_eq_ok_iff.1 h
  obtain ⟨text, htext, h⟩ := bind_eq_ok_iff.1 h
  obtain ⟨confidence, hconfidence, h⟩ := bind_eq_ok_iff.1 h
  obtain ⟨built, hbuild, -⟩ := bind_eq_ok_iff.1 h
  -- the name and the number are not looked at when a segment is built
  obtain ⟨renumbered, hbuild'⟩ := Segment.exists_build_iff.2 (Segment.exists_build_iff.1
    ⟨built, hbuild⟩)
  refine ⟨{ renumbered with speaker := utterance.speaker, language := utterance.language }, ?_⟩
  exact bind_eq_ok_iff.2 ⟨start, hstart, bind_eq_ok_iff.2 ⟨stop, hstop, bind_eq_ok_iff.2 ⟨text,
    htext, bind_eq_ok_iff.2 ⟨confidence, hconfidence, bind_eq_ok_iff.2 ⟨renumbered, hbuild',
      rfl⟩⟩⟩⟩⟩

end Utterance

namespace Timeline

/-- The text of a timeline is refused only for what it is. -/
theorem fullText_eq_error {timeline : Timeline} {refusal : Refusal}
    (h : timeline.fullText = .error refusal) : ∃ cause, refusal = .value cause := by
  unfold fullText at h
  split at h
  · contradiction
  · rcases bind_eq_error_iff.1 h with htext | ⟨text, -, hformat⟩
    · obtain ⟨cause, -, rfl⟩ := orRefuse_eq_error_iff.1 htext
      exact ⟨cause, rfl⟩
    · contradiction

/-- A segment is refused for a conflict with one that is there. -/
theorem accept_eq_error {timeline : Timeline} {segment : Segment} {refusal : Refusal}
    (h : timeline.accept segment = .error refusal) :
    ∃ other ∈ timeline, conflicts segment other = true ∧
      refusal = .overlap segment.id other.id (segment.overlap other).millis := by
  rw [accept] at h
  cases hconflict : timeline.conflict? segment with
  | none =>
    rw [hconflict] at h
    contradiction
  | some other =>
    rw [hconflict] at h
    cases h
    exact ⟨other, List.mem_of_find?_eq_some hconflict, List.find?_some hconflict, rfl⟩

end Timeline

namespace Transcription

open Session Utterance

section Fed

variable {options : Options} {listener : Listener} {number : ℕ} {c last : Course}
  {utterances : List Utterance} {result : Except Refusal Bool} {taken : List (Utterance × ℕ)}
  {added : List Segment}

/-! ## Feeding -/

/-- With conflicts left out nothing ends the feeding before its time, if every utterance becomes a
segment and the listener lets everything pass. -/
theorem Fed.result_eq (h : Fed options listener number c utterances last result)
    (hskip : options.skipOverlapping = true) (hl : ∀ reports, listener reports = true)
    (hfit : ∀ utterance ∈ utterances, ∃ number segment, utterance.toSegment number = .ok segment) :
    result = .ok true := by
  induction h with
  | all => rfl
  -- whether an utterance becomes a segment does not depend on its place
  | unfit c rest unfit =>
    obtain ⟨_, segment, hsegment⟩ := hfit _ List.mem_cons_self
    obtain ⟨segment', hsegment'⟩ := exists_toSegment hsegment (UInt32.ofNat _)
    rw [unfit] at hsegment'
    contradiction
  | left _ _ _ _ ih => exact ih fun _ h => hfit _ (List.mem_cons_of_mem _ h)
  -- only an overlap can be refused, and that is left out
  | refused c rest _ conflict kept =>
    obtain ⟨other, -, -, rfl⟩ := Timeline.accept_eq_error conflict
    rw [skips, hskip] at kept
    contradiction
  | added _ _ _ _ ih => exact ih fun _ h => hfit _ (List.mem_cons_of_mem _ h)
  | stopped c rest _ _ stops =>
    rw [hl] at stops
    contradiction

/-- Segments that keep apart do so after the feeding. -/
theorem Fed.separated (h : Fed options listener number c utterances last result)
    (hc : c.session.segments.Separated) : last.session.segments.Separated := by
  induction h with
  | all => exact hc
  | unfit => exact hc
  | left _ _ _ _ ih => exact ih hc
  | refused => exact hc
  | added _ accepted _ _ ih => exact ih (hc.accept accepted)
  | stopped _ _ _ accepted _ => exact hc.accept accepted

/-! ## What is left out -/

/-- Every utterance becomes a segment, and those that are not taken are just those whose segment
conflicts with one that was there before, or with that of an earlier utterance that is taken. -/
def LeftOut (timeline : Timeline) (number : ℕ) (utterances : List Utterance)
    (taken : List (Utterance × ℕ)) : Prop :=
  ∀ entry ∈ utterances.zipIdx number, ∃ segment, Becomes entry segment ∧
    (entry ∉ taken ↔ (∃ other ∈ timeline, Timeline.conflicts segment other = true) ∨
      ∃ earlier ∈ taken, earlier.2 < entry.2 ∧
        ∃ other, Becomes earlier other ∧ Timeline.conflicts segment other = true)

/-- No utterance that is taken stands before the first one. -/
theorem Taken.le_place (h : Taken number utterances taken added) {entry : Utterance × ℕ}
    (hentry : entry ∈ taken) : number ≤ entry.2 :=
  List.le_snd_of_mem_zipIdx (h.sublist.subset hentry)

section Cons

variable {timeline : Timeline} {utterance : Utterance} {segment : Segment}

/-- An utterance in front that conflicts is left out, and nothing else changes. -/
theorem LeftOut.skip (h : LeftOut timeline (number + 1) utterances taken)
    (htaken : Taken (number + 1) utterances taken added)
    (hfit : Becomes (utterance, number) segment)
    (hconflict : ∃ other ∈ timeline, Timeline.conflicts segment other = true) :
    LeftOut timeline number (utterance :: utterances) taken := by
  intro entry hentry
  rw [List.zipIdx_cons, List.mem_cons] at hentry
  rcases hentry with rfl | hrest
  · refine ⟨segment, hfit, iff_of_true (fun hmem => ?_) (.inl hconflict)⟩
    exact absurd (htaken.le_place hmem) (Nat.not_succ_le_self number)
  · exact h entry hrest

/-- An utterance in front that conflicts with nothing is taken, and those behind it have one more to
conflict with. -/
theorem LeftOut.cons (h : LeftOut (timeline.place segment) (number + 1) utterances taken)
    (htaken : Taken (number + 1) utterances taken added)
    (hfit : Becomes (utterance, number) segment)
    (hclear : ∀ other ∈ timeline, Timeline.conflicts segment other = false) :
    LeftOut timeline number (utterance :: utterances) ((utterance, number) :: taken) := by
  intro entry hentry
  rw [List.zipIdx_cons, List.mem_cons] at hentry
  rcases hentry with rfl | hrest
  · refine ⟨segment, hfit, iff_of_false (fun hleft => hleft List.mem_cons_self) ?_⟩
    rintro (⟨other, hother, hconflict⟩ | ⟨earlier, hearlier, hlt, -⟩)
    · rw [hclear other hother] at hconflict
      contradiction
    · -- none that is taken stands before it
      rcases List.mem_cons.1 hearlier with rfl | hlater
      · exact absurd hlt (lt_irrefl _)
      · have hplace := htaken.le_place hlater
        exact absurd hlt (by simp only; omega)
  · have hplace := List.le_snd_of_mem_zipIdx hrest
    have hne : entry ≠ (utterance, number) := by
      rintro rfl
      exact absurd hplace (Nat.not_succ_le_self number)
    obtain ⟨own, hown, hiff⟩ := h entry hrest
    refine ⟨own, hown, ?_⟩
    rw [List.mem_cons, or_iff_right hne, hiff]
    constructor
    · rintro (⟨other, hother, hconflict⟩ | ⟨earlier, hearlier, hconflict⟩)
      · rcases Timeline.mem_place.1 hother with rfl | hthere
        · exact .inr ⟨_, List.mem_cons_self, hplace, other, hfit, hconflict⟩
        · exact .inl ⟨other, hthere, hconflict⟩
      · exact .inr ⟨earlier, List.mem_cons_of_mem _ hearlier, hconflict⟩
    · rintro (⟨other, hother, hconflict⟩ | ⟨earlier, hearlier, hlt, other, hother, hconflict⟩)
      · exact .inl ⟨other, Timeline.mem_place.2 (.inr hother), hconflict⟩
      · rcases List.mem_cons.1 hearlier with rfl | hlater
        · exact .inl ⟨other, Timeline.mem_place.2 (.inl (hother.unique hfit)), hconflict⟩
        · exact .inr ⟨earlier, hlater, hlt, other, hother, hconflict⟩

end Cons

/-- When all utterances are fed, those that are not taken are those that conflict. -/
theorem Fed.exists_leftOut (h : Fed options listener number c utterances last (.ok true)) :
    ∃ taken added, Taken number utterances taken added ∧ Grows listener c last added (.ok true) ∧
      LeftOut c.session.segments number utterances taken := by
  generalize hresult : Except.ok true = result at h
  induction h with
  | all number c => exact ⟨[], [], taken_nil _ _, grows_self _ _ _, nofun⟩
  | unfit | refused | stopped => contradiction
  | left fit conflict _ _ ih =>
    obtain ⟨taken, added, htaken, hgrows, hleft⟩ := ih hresult
    obtain ⟨other, hother, hconflict, -⟩ := Timeline.accept_eq_error conflict
    exact ⟨taken, added, htaken.skip _, hgrows, hleft.skip htaken fit ⟨other, hother, hconflict⟩⟩
  | @added number c last utterance rest segment next result fit accepted goesOn _ ih =>
    obtain ⟨taken, added, htaken, hgrows, hleft⟩ := ih hresult
    obtain ⟨hclear, rfl⟩ := Timeline.accept_eq_ok_iff.1 accepted
    exact ⟨(utterance, number) :: taken, segment :: added, htaken.cons fit, hgrows.cons goesOn,
      hleft.cons htaken fit hclear⟩

end Fed

/-! ## Closing -/

section Close

variable {options : Options} {listener : Listener} {c fed : Course} {refusal : Refusal}

/-- A session that is processing is refused its completion for a lack of segments or for the text
that they make. -/
theorem refusal_of_complete {s next : Session} (hs : s.status = .processing) {now : Instant}
    (h : Session.complete now s = .error refusal next) :
    refusal = .noSegments ∨ ∃ cause, refusal = .value cause := by
  rw [complete_eq_of_processing hs] at h
  split at h
  · cases h
    exact .inl rfl
  · cases htext : s.segments.fullText with
    | ok text =>
      rw [htext] at h
      contradiction
    | error refused =>
      rw [htext] at h
      cases h
      exact .inr (Timeline.fullText_eq_error htext)

/-- When the utterances are through and nothing is to be merged, no conflict is found any more. -/
theorem ne_overlap_of_finish (hmerge : options.mergeAdjacent = false) {utterances : List Utterance}
    (hfeed : feed options listener 0 c utterances = (fed, .ok true))
    (hfed : fed.session.status = .processing) (finished : Instant) (segment existing : String)
    (millis : Float) : (finish options listener finished c utterances).result ≠
      .error (.refused (.overlap segment existing millis)) := by
  rw [finish, process, hfeed]
  dsimp only
  rw [conclude, close_of_not_merge hmerge]
  cases hcomplete : Session.complete finished fed.session with
  | ok _ next => simp
  | error refusal next =>
    intro h
    cases h
    rcases refusal_of_complete hfed hcomplete with h | ⟨cause, h⟩ <;> contradiction

end Close

/-! ## Whole transcriptions -/

/-- What a transcription that leaves out conflicts makes of a recognizer's output: `added` are the
segments of the utterances that are `taken`. -/
structure Sifted (utterances : List Utterance) (taken : List (Utterance × ℕ)) (added : List Segment)
    (o : Outcome) : Prop where
  /-- Each segment comes from an utterance of its own, -/
  comes : Taken 0 utterances taken added
  /-- and the session has just these. -/
  segments : o.course.session.segments.Perm added
  separated : o.course.session.segments.Separated
  /-- An utterance is left out exactly if it conflicts with an earlier one that is not. -/
  left_iff : LeftOut [] 0 utterances taken
  /-- No event tells of one that is left out. -/
  told : ((o.course.events.toList ++ o.course.session.outbox.pending).filterMap
    (·.what.processed?)).map (·.1) = added.map (·.id)
  /-- Whatever a transcription fails with, it is no conflict. -/
  no_overlap : ∀ segment existing millis,
    o.result ≠ .error (.refused (.overlap segment existing millis))

/-- A transcription that leaves out conflicts takes each utterance that can be taken. -/
theorem sifted_execute (id audioId : String) (language : Language) (parameters : Parameters)
    (steps : List (Instant × Command)) (options : Options) (utterances : List Utterance)
    (listener : Listener) (started finished : Instant)
    (hs : (((new id audioId language).withParameters parameters).run steps).status = .pending)
    (hskip : options.skipOverlapping = true) (hmerge : options.mergeAdjacent = false)
    (hl : ∀ reports, listener reports = true)
    (hfit : ∀ utterance ∈ utterances, ∃ number segment,
      utterance.toSegment number = .ok segment) :
    ∃ taken added, Sifted utterances taken added (execute options (.ok utterances) listener started
      finished (((new id audioId language).withParameters parameters).run steps)) := by
  obtain ⟨reason, hconsistent⟩ := (Consistent.new id audioId language parameters).exists_run steps
  obtain ⟨-, hempty⟩ := chronicled_of_pending hconsistent hs
  generalize ((new id audioId language).withParameters parameters).run steps = s at hs hempty ⊢
  have hopened : Underway s (opened options listener started s) :=
    underway_of_start hs options listener started
  have hfed := fed_feed options listener 0 utterances hopened.processing hopened.taken
  have hunderway := hopened.feed options listener 0 utterances
  rw [execute_eq_finish hs]
  generalize hfeed : feed options listener 0 (opened options listener started s) utterances = fed
    at hfed hunderway
  obtain ⟨fed, result⟩ := fed
  -- all utterances come through, and what comes after them leaves the segments as they are
  obtain rfl : result = .ok true := hfed.result_eq hskip hl hfit
  obtain ⟨hleaves, -⟩ := leaves_finish hfeed hunderway finished
  have hkept := hleaves.segments.resolve_right (by rw [hmerge]; simp)
  obtain ⟨taken, added, htaken, hgrows, hleft⟩ := hfed.exists_leftOut
  rw [segments_opened] at hleft
  refine ⟨taken, added, htaken, ?_, ?_, hleft, ?_,
    ne_overlap_of_finish hmerge hfeed hunderway.processing finished⟩
  · have hperm := Timeline.placed_perm (opened options listener started s).session.segments added
    rw [segments_opened, List.append_nil] at hperm
    rw [hkept, hgrows.segments, segments_opened]
    exact hperm
  · rw [hkept]
    exact hfed.separated (by rw [segments_opened]; exact Timeline.separated_nil)
  · rw [List.filterMap_append, hleaves.quiet, List.append_nil]
    have hprocessed := hleaves.processed.trans hgrows.processed
    rw [processed_opened options listener started hempty, List.nil_append] at hprocessed
    rw [← Course.processed, hprocessed]
    exact List.map_fst_zip (by rw [List.length_map, Timeline.length_progressAlong])

/-- The second utterance lies over the end of the first; the third lies over the end of the second
alone. -/
def overlapping : List Utterance :=
  [utterance 0 2 "one" none, utterance 1.5 4 "two" none, utterance 3 5 "three" none]

/-- Standard options, but what conflicts is left out and nothing is merged. -/
def sifting : Options := { Options.standard with skipOverlapping := true, mergeAdjacent := false }

theorem sifted_overlapping :
    ∃ taken added, added.map (·.id) = ["segment_0", "segment_2"] ∧
      Sifted overlapping taken added (execute sifting (.ok overlapping) (fun _ => true) ⟨0⟩ ⟨1⟩
        (.new "a" "audio" .auto)) := by
  have hfit : ∀ utterance ∈ overlapping, (utterance.toSegment 0).isOk = true := by decide +kernel
  obtain ⟨taken, added, hsifted⟩ := sifted_execute "a" "audio" .auto .empty [] sifting overlapping
    (fun _ => true) ⟨0⟩ ⟨1⟩ rfl rfl rfl (fun _ => rfl) fun utterance hmem => by
      cases hsegment : utterance.toSegment 0 with
      | ok segment => exact ⟨0, segment, hsegment⟩
      | error refusal =>
        have hok := hfit utterance hmem
        rw [hsegment] at hok
        contradiction
  exact ⟨taken, added, hsifted.told.symm.trans (by decide +kernel), hsifted⟩

end Transcription

end SpeechTranscript
