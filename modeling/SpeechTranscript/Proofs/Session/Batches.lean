import SpeechTranscript.Proofs.Session.Merging

/-!
# Batches of segments

A batch is staged on a copy of the timeline. The confidence is told once, at its end, and what is
reported of it is recorded last. Adding the same segments one by one does all of this for each of
them. The session is the same afterwards; only where a segment is refused do the two differ, since
a batch then takes back the segments before it.

If no two segments of a batch start together, its order shows only in what is reported of it.

* `addSegments_eq`: a batch is added as its segments are one by one, or not at all.
* `oneByOne_run`: the same in a session after any run, with the segment that is refused first.
* `anyOrder_run`: when a batch is added, and what does not depend on its order.
-/

namespace SpeechTranscript.Session

/-! ## The first failure -/

section First

variable {ε σ α : Type} {f : α → EStateM ε σ Unit} {xs : List α} {s last : σ} {e : ε}

/-- The first element is dealt with first, and a refusal stops there. -/
theorem forM_cons_apply (f : α → EStateM ε σ Unit) (x : α) (xs : List α) (s : σ) :
    (x :: xs).forM f s =
      match f x s with
      | .ok _ next => xs.forM f next
      | .error e next => .error e next := by
  show EStateM.bind (f x) (fun _ => xs.forM f) s = _
  rw [EStateM.bind]
  cases f x s <;> rfl

/-- Something done for each of a list fails where it fails first. -/
theorem forM_eq_error_iff : xs.forM f s = .error e last ↔ ∃ front x back middle,
    xs = front ++ x :: back ∧ front.forM f s = .ok () middle ∧ f x middle = .error e last := by
  constructor
  · intro h
    induction xs generalizing s with
    | nil => cases h
    | cons x rest ih =>
      rw [forM_cons_apply] at h
      cases hx : f x s with
      | error e' last' =>
        rw [hx] at h
        exact ⟨[], x, rest, s, rfl, rfl, hx.trans h⟩
      | ok _ next =>
        rw [hx] at h
        -- the refusal comes later, behind one more element that was dealt with
        obtain ⟨front, y, back, middle, rfl, hfront, hy⟩ := ih h
        refine ⟨x :: front, y, back, middle, rfl, ?_, hy⟩
        rw [forM_cons_apply, hx]
        exact hfront
  · rintro ⟨front, x, back, middle, rfl, hfront, hx⟩
    induction front generalizing s with
    | nil =>
      cases hfront
      rw [List.nil_append, forM_cons_apply, hx]
    | cons y front ih =>
      rw [forM_cons_apply] at hfront
      rw [List.cons_append, forM_cons_apply]
      cases hy : f y s with
      | error e' last' =>
        rw [hy] at hfront
        cases hfront
      | ok _ next =>
        rw [hy] at hfront
        exact ih hfront

end First

/-! ## One by one -/

section OneByOne

variable {s : Session} {batch : List Segment}

/-- Segments that can be staged are added one by one, and leave the same session. -/
theorem forM_addSegment_of_ok {segments : Timeline} {reports : List Happening}
    (hprocessing : s.status = .processing) (hconfidence : s.confidence = s.segments.confidence)
    (h : stage s.recording s.segments batch = .ok (segments, reports)) :
    batch.forM addSegment s = .ok () (reports.foldl record (s.withSegments segments)) := by
  -- each segment finds the session that those before it have left, so the session varies
  induction batch generalizing s reports with
  | nil =>
    cases h
    show EStateM.Result.ok () s = .ok () (s.withSegments s.segments)
    rw [withSegments_self hconfidence]
  | cons segment rest ih =>
    obtain ⟨staged, haccept, h⟩ := bind_eq_ok_iff.1 h
    obtain ⟨⟨segments', reports'⟩, hrest, h⟩ := bind_eq_ok_iff.1 h
    cases h
    rw [forM_cons_apply, addSegment_of_processing hprocessing, haccept]
    -- the confidence told in between is told anew, and does not show
    exact ih (s := (s.withSegments staged).record
      (.segmentProcessed segment.id (staged.progress s.recording))) hprocessing rfl hrest

/-- The segment that cannot be staged is refused for the same reason. -/
theorem forM_addSegment_of_error {refusal : Refusal} (hprocessing : s.status = .processing)
    (h : stage s.recording s.segments batch = .error refusal) :
    ∃ last, batch.forM addSegment s = .error refusal last := by
  induction batch generalizing s with
  | nil => cases h
  | cons segment rest ih =>
    rw [forM_cons_apply, addSegment_of_processing hprocessing]
    -- the first segment is refused, or one of the rest against what it has made
    rcases bind_eq_error_iff.1 h with haccept | ⟨staged, haccept, h⟩
    · rw [haccept]
      exact ⟨s, rfl⟩
    · rw [haccept]
      rcases bind_eq_error_iff.1 h with hrest | ⟨more, -, h⟩
      · exact ih (s := (s.withSegments staged).record
          (.segmentProcessed segment.id (staged.progress s.recording))) hprocessing hrest
      · cases h

/-- A batch is added as its segments are one by one, or not at all. -/
theorem addSegments_eq (hprocessing : s.status = .processing)
    (hconfidence : s.confidence = s.segments.confidence) (batch : List Segment) :
    addSegments batch s =
      match batch.forM addSegment s with
      | .ok _ next => .ok () next
      | .error refusal _ => .error refusal s := by
  rw [addSegments_of_processing hprocessing]
  cases hstage : stage s.recording s.segments batch with
  | ok staged => rw [forM_addSegment_of_ok hprocessing hconfidence hstage]
  | error refusal =>
    obtain ⟨last, hlast⟩ := forM_addSegment_of_error hprocessing hstage
    rw [hlast]

/-- A batch is taken exactly if its segments are taken one by one. -/
theorem addSegments_ok_iff_forM (hprocessing : s.status = .processing)
    (hconfidence : s.confidence = s.segments.confidence) {next : Session} :
    addSegments batch s = .ok () next ↔ batch.forM addSegment s = .ok () next := by
  rw [addSegments_eq hprocessing hconfidence]
  cases batch.forM addSegment s with
  | ok _ last => exact Iff.rfl
  | error refusal last => exact ⟨nofun, nofun⟩

/-- A batch is refused for the reason for which the first of its segments is, and leaves the session
as it was. -/
theorem addSegments_error_iff_forM (hprocessing : s.status = .processing)
    (hconfidence : s.confidence = s.segments.confidence) {refusal : Refusal} {next : Session} :
    addSegments batch s = .error refusal next ↔ next = s ∧ ∃ front segment back middle,
      batch = front ++ segment :: back ∧ front.forM addSegment s = .ok () middle ∧
        addSegment segment middle = .error refusal middle := by
  rw [addSegments_eq hprocessing hconfidence]
  constructor
  · intro h
    cases hbatch : batch.forM addSegment s with
    | ok _ last =>
      rw [hbatch] at h
      cases h
    | error refusal' last =>
      rw [hbatch] at h
      cases h
      obtain ⟨front, segment, back, middle, hparts, hfront, hsegment⟩ :=
        forM_eq_error_iff.1 hbatch
      have hrefused : perform ⟨0⟩ (.add segment) middle = .error refusal last := hsegment
      -- the refused segment has changed nothing in the session it was given to
      obtain rfl := eq_of_perform_error hrefused
      exact ⟨rfl, front, segment, back, last, hparts, hfront, hsegment⟩
  · rintro ⟨rfl, front, segment, back, middle, hparts, hfront, hsegment⟩
    rw [forM_eq_error_iff.2 ⟨front, segment, back, middle, hparts, hfront, hsegment⟩]

/-- In a session after any run, a batch is added exactly if the session is processing and all its
segments can be added one by one, and the session is the same afterwards. While it is processing, a
batch is refused for the reason for which the first of its segments is. -/
theorem oneByOne_run (id audioId : String) (language : Language) (parameters : Parameters)
    (steps : List (Instant × Command)) (batch : List Segment) :
    let s := ((new id audioId language).withParameters parameters).run steps
    (∀ next, addSegments batch s = .ok () next ↔
        s.status = .processing ∧ batch.forM addSegment s = .ok () next) ∧
      (s.status = .processing → ∀ refusal next, addSegments batch s = .error refusal next ↔
        next = s ∧ ∃ front segment back middle, batch = front ++ segment :: back ∧
          front.forM addSegment s = .ok () middle ∧
          addSegment segment middle = .error refusal middle) := by
  intro s
  obtain ⟨reason, hconsistent⟩ := (Consistent.new id audioId language parameters).exists_run steps
  -- this is where the history of the session comes in
  have hconfidence : s.confidence = s.segments.confidence := hconsistent.confidence_eq
  refine ⟨fun next => ⟨fun h => ?_, ?_⟩, ?_⟩
  · have heffect : Effect ⟨0⟩ s (.addAll batch) next := effect_of_perform h
    cases heffect with
    | addAll processing staged =>
      exact ⟨processing, (addSegments_ok_iff_forM processing hconfidence).1 h⟩
  · rintro ⟨hprocessing, h⟩
    exact (addSegments_ok_iff_forM hprocessing hconfidence).2 h
  · intro hprocessing refusal next
    exact addSegments_error_iff_forM hprocessing hconfidence

end OneByOne

/-! ## In any order -/

section AnyOrder

variable {s next : Session} {batch : List Segment}

/-- While a session is processing, a batch is added exactly if it fits. -/
theorem addSegments_ok_iff_fits (hprocessing : s.status = .processing) :
    addSegments batch s = .ok () next ↔ s.segments.Fits batch ∧
      next = (List.zipWith Happening.segmentProcessed (batch.map (·.id))
        (s.segments.progressAlong s.recording batch)).foldl record
          (s.withSegments (s.segments.placed batch)) := by
  rw [addSegments_of_processing hprocessing]
  cases hstage : stage s.recording s.segments batch with
  | ok staged =>
    obtain ⟨hfits, rfl⟩ := stage_eq_ok_iff.1 hstage
    constructor
    · intro h
      cases h
      exact ⟨hfits, rfl⟩
    · rintro ⟨-, rfl⟩
      rfl
  | error refusal =>
    constructor
    · intro h
      cases h
    · rintro ⟨hfits, -⟩
      -- a batch that fits cannot be refused
      rw [stage_eq_ok_iff.2 ⟨hfits, rfl⟩] at hstage
      cases hstage

theorem exists_addSegments_iff (hprocessing : s.status = .processing) :
    (∃ next, addSegments batch s = .ok () next) ↔ s.segments.Fits batch := by
  simp only [addSegments_ok_iff_fits hprocessing, exists_and_left, exists_eq, and_true]

/-- The order of a batch shows only in what is reported of it, if no two of its segments start
together. -/
theorem addSegments_eq_of_perm {batch' : List Segment} {next' : Session}
    (hprocessing : s.status = .processing) (hordered : s.segments.Ordered)
    (hperm : batch.Perm batch') (hstarts : batch.Pairwise (·.start != ·.start))
    (h : addSegments batch s = .ok () next) (h' : addSegments batch' s = .ok () next') :
    next' = { next with outbox := next'.outbox } := by
  obtain ⟨-, rfl⟩ := (addSegments_ok_iff_fits hprocessing).1 h
  obtain ⟨-, rfl⟩ := (addSegments_ok_iff_fits hprocessing).1 h'
  simp only [foldl_record, hordered.placed_eq_of_perm hperm hstarts, List.length_zipWith,
    List.length_map, Timeline.length_progressAlong, hperm.length_eq]

/-- In a session that is processing after any run, a batch is added exactly if it fits, in whatever
order. If no two of its segments start together, the order changes neither the segments nor what is
told of them as a whole. -/
theorem anyOrder_run {id audioId : String} {language : Language} {parameters : Parameters}
    {steps : List (Instant × Command)}
    (hs : s = ((new id audioId language).withParameters parameters).run steps)
    (hprocessing : s.status = .processing) (batch : List Segment) :
    ((∃ next, addSegments batch s = .ok () next) ↔ s.segments.Fits batch) ∧
      ∀ batch', batch.Perm batch' →
        ((∃ next, addSegments batch s = .ok () next) ↔
          ∃ next, addSegments batch' s = .ok () next) ∧
        (batch.Pairwise (·.start != ·.start) → ∀ next next', addSegments batch s = .ok () next →
          addSegments batch' s = .ok () next' →
          next'.segments = next.segments ∧ next'.confidence = next.confidence ∧
            next'.fullText = next.fullText) := by
  -- placing segments in another order gives the same list only if the list is in order
  have hordered : s.segments.Ordered := hs ▸ ordered_run Timeline.ordered_nil steps
  refine ⟨exists_addSegments_iff hprocessing, fun batch' hperm => ⟨?_, ?_⟩⟩
  · rw [exists_addSegments_iff hprocessing, exists_addSegments_iff hprocessing]
    exact Timeline.fits_iff_of_perm hperm
  · intro hstarts next next' h h'
    rw [addSegments_eq_of_perm hprocessing hordered hperm hstarts h h']
    exact ⟨rfl, rfl, rfl⟩

/-- A session that has heard the middle of three words. -/
def middleWord : List (Instant × Command) :=
  [(⟨0⟩, .start none ""), (⟨0⟩, .add (spoken 1 2 "after" 1 (by decide +kernel)))]

/-- The other two words. -/
def outerWords : List Segment :=
  [spoken 0 1 "one" 0 (by decide +kernel), spoken 2 3 "another" 2 (by decide +kernel)]

theorem anyOrder_outerWords :
    ∃ next next',
      addSegments outerWords
        (((new "s" "audio" .auto).withParameters .empty).run middleWord) = .ok () next ∧
      addSegments outerWords.reverse
        (((new "s" "audio" .auto).withParameters .empty).run middleWord) = .ok () next' ∧
      next.segments.map (·.text.content) = ["one", "after", "another"] ∧
      next'.segments = next.segments ∧ next'.confidence = next.confidence ∧
        next'.fullText = next.fullText := by
  have hprocessing : (((new "s" "audio" .auto).withParameters .empty).run middleWord).status =
      .processing := by decide +kernel
  obtain ⟨-, horder⟩ := anyOrder_run rfl hprocessing outerWords
  obtain ⟨-, hsame⟩ := horder outerWords.reverse (List.reverse_perm outerWords).symm
  have h := perform_of_carriesOut
    (s := ((new "s" "audio" .auto).withParameters .empty).run middleWord)
    (⟨0⟩, .addAll outerWords) (by decide +kernel)
  have h' := perform_of_carriesOut
    (s := ((new "s" "audio" .auto).withParameters .empty).run middleWord)
    (⟨0⟩, .addAll outerWords.reverse) (by decide +kernel)
  exact ⟨_, _, h, h', by decide +kernel, hsame (by decide +kernel) _ _ h h'⟩

end AnyOrder

end SpeechTranscript.Session
