import SpeechTranscript.Proofs.Timeline.Placing
import SpeechTranscript.Session.Command

/-!
# What the operations do

A command is either refused, and then the session stays as it is, or it has one of a few effects.
Everything that is true of all runs of a session is proved from these effects: it holds of a new
session and every effect preserves it.

* `settles_perform`: a command has an effect or is refused and changes nothing.
* `stage_eq_ok_iff`: when a batch can be staged, and what comes of it.
* `run_induction`: what holds at first and survives every effect holds after every run.
-/

namespace SpeechTranscript.Session

/-- What a command that is carried out makes of a session. -/
inductive Effect (now : Instant) (s : Session) : Command → Session → Prop where
  | start {recording : Option Duration} {model : String} (pending : s.status = .pending) :
      Effect now s (.start recording model) (s.begun recording model now)
  | add {segment : Segment} {segments : Timeline} (processing : s.status = .processing)
      (accepted : s.segments.accept segment = .ok segments) :
      Effect now s (.add segment)
        ((s.withSegments segments).record
          (.segmentProcessed segment.id (segments.progress s.recording)))
  | addAll {batch : List Segment} {segments : Timeline} {reports : List Happening}
      (processing : s.status = .processing)
      (staged : stage s.recording s.segments batch = .ok (segments, reports)) :
      Effect now s (.addAll batch) (reports.foldl record (s.withSegments segments))
  | mergeFew {gap : Float} (processing : s.status = .processing)
      (few : s.segments.length < 2) : Effect now s (.merge gap) s
  | merge {gap : Float} {segments : Timeline} (processing : s.status = .processing)
      (many : 2 ≤ s.segments.length) (merged : s.segments.mergeAdjacent gap = .ok segments) :
      Effect now s (.merge gap) { s.withSegments segments with version := s.version + 1 }
  | complete {text : Text} (processing : s.status = .processing) (nonempty : s.segments ≠ [])
      (composed : s.segments.fullText = .ok text) :
      Effect now s .complete (s.completedWith text now)
  | failLate {message code : String} (terminal : s.status.isTerminal = true) :
      Effect now s (.fail message code) s
  | fail {message code : String} (alive : s.status.isTerminal = false) :
      Effect now s (.fail message code) (s.failedWith message code now)
  | cancel {reason : Option String} (alive : s.status.isTerminal = false) :
      Effect now s (.cancel reason) (s.cancelledFor reason now)
  | drain : Effect now s .drain { s with outbox := .empty }

/-! ## Opening an operation -/

/-- A change has an effect on a session, or it is refused and leaves the session as it was. -/
def Settles (s : Session) (effect : Session → Prop) (change : Change Unit) : Prop :=
  (∃ next, change s = .ok () next ∧ effect next) ∨ ∃ refusal, change s = .error refusal s

section Open

variable {s next : Session} {effect : Session → Prop} {change : Change Unit} {α : Type}

theorem Settles.ok (h : change s = .ok () next) (heffect : effect next) :
    Settles s effect change :=
  .inl ⟨next, h, heffect⟩

theorem Settles.refused (refusal : Refusal) : Settles s effect (throw refusal) :=
  .inr ⟨refusal, rfl⟩

theorem Settles.get {rest : Session → Change Unit} (h : Settles s effect (rest s)) :
    Settles s effect (get >>= rest) := h

/-- A guard lets the rest go on, or refuses. -/
theorem Settles.require {status : Status} {operation : Operation} {rest : Unit → Change Unit}
    (h : s.status = status → Settles s effect (rest ())) :
    Settles s effect (Session.require status operation >>= rest) := by
  show Settles s effect (do
    let s ← MonadState.get
    (if s.status = status then pure () else throw (.wrongStatus operation s.status)) >>= rest)
  refine .get ?_
  by_cases hstatus : s.status = status
  · rw [if_pos hstatus]
    exact h hstatus
  · rw [if_neg hstatus]
    exact .refused _

/-- A value that cannot be had refuses the rest. -/
theorem Settles.ofExcept {value : Except Refusal α} {rest : α → Change Unit}
    (h : ∀ a, value = .ok a → Settles s effect (rest a)) :
    Settles s effect (MonadExcept.ofExcept value >>= rest) := by
  cases value with
  | ok a => exact h a rfl
  | error refusal => exact .refused refusal

/-- Recording reports one after another never fails. -/
theorem forM_record (s : Session) (reports : List Happening) :
    (reports.forM fun report => modify (·.record report) : Change Unit) s =
      .ok () (reports.foldl record s) := by
  induction reports generalizing s with
  | nil => rfl
  | cons report rest ih => exact ih _

/-- A command has one of the effects, or it is refused. -/
theorem settles_perform (now : Instant) (command : Command) (s : Session) :
    Settles s (Effect now s command) (perform now command) := by
  cases command with
  | start recording model => exact .require fun h => .ok rfl (.start h)
  | add segment =>
    exact .require fun h => .get (.ofExcept fun segments haccept => .ok rfl (.add h haccept))
  | addAll batch =>
    refine .require fun h => .get (.ofExcept fun staged hstage => ?_)
    obtain ⟨segments, reports⟩ := staged
    exact .ok (forM_record _ reports) (.addAll h hstage)
  -- two segments at least are needed before anything is merged
  | merge gap =>
    refine .require fun h => .get ?_
    by_cases hfew : s.segments.length < 2
    · rw [if_pos hfew]
      exact .ok rfl (.mergeFew h hfew)
    · rw [if_neg hfew]
      exact .ofExcept fun segments hmerge => .ok rfl (.merge h (not_lt.1 hfew) hmerge)
  | complete =>
    refine .require fun h => .get ?_
    by_cases hempty : s.segments.isEmpty
    · rw [if_pos hempty]
      exact .refused _
    · rw [if_neg hempty]
      have hsome : s.segments ≠ [] := fun hnil => hempty (by rw [hnil]; rfl)
      exact .ofExcept fun text htext => .ok rfl (.complete h hsome htext)
  -- failing is never refused, but does nothing at the end
  | fail message code =>
    have hfail : perform now (.fail message code) s = .ok () (s.fail message code now) := rfl
    refine .ok hfail ?_
    rw [fail]
    split
    · rename_i h
      exact .failLate h
    · rename_i h
      exact .fail (Bool.not_eq_true _ ▸ h)
  | cancel reason =>
    refine .get ?_
    by_cases h : s.status.isTerminal = true
    · rw [if_pos h]
      exact .refused _
    · rw [if_neg h]
      exact .ok rfl (.cancel (Bool.not_eq_true _ ▸ h))
  | drain => exact .ok rfl .drain

/-- A guard that is met changes nothing. -/
theorem require_of_status {status : Status} (h : s.status = status) (operation : Operation) :
    Session.require status operation s = .ok () s := by
  show (if s.status = status then pure () else throw _ : Change Unit) s = _
  rw [if_pos h]
  rfl

/-- While a session is processing, adding a segment is accepting it. -/
theorem addSegment_of_processing (h : s.status = .processing) (segment : Segment) :
    addSegment segment s =
      match s.segments.accept segment with
      | .ok segments => .ok () ((s.withSegments segments).record
          (.segmentProcessed segment.id (segments.progress s.recording)))
      | .error refusal => .error refusal s := by
  show EStateM.bind (Session.require .processing .addSegment) _ s = _
  rw [EStateM.bind, require_of_status h]
  show EStateM.bind (MonadExcept.ofExcept (s.segments.accept segment)) _ s = _
  cases s.segments.accept segment <;> rfl

/-- While a session is processing, adding a batch is staging it. -/
theorem addSegments_of_processing (h : s.status = .processing) (batch : List Segment) :
    addSegments batch s =
      match stage s.recording s.segments batch with
      | .ok (segments, reports) => .ok () (reports.foldl record (s.withSegments segments))
      | .error refusal => .error refusal s := by
  show EStateM.bind (Session.require .processing .addSegment) _ s = _
  rw [EStateM.bind, require_of_status h]
  show EStateM.bind (MonadExcept.ofExcept (stage s.recording s.segments batch)) _ s = _
  cases stage s.recording s.segments batch with
  | ok staged => exact forM_record _ _
  | error refusal => rfl

/-- While a session is processing, merging is merging its segments, if there are at least two. -/
theorem mergeAdjacent_of_processing (h : s.status = .processing) (gap : Float) :
    mergeAdjacent gap s =
      if s.segments.length < 2 then .ok () s
      else match s.segments.mergeAdjacent gap with
        | .ok segments => .ok () { s.withSegments segments with version := s.version + 1 }
        | .error refusal => .error refusal s := by
  show EStateM.bind (Session.require .processing .mergeSegments) _ s = _
  rw [EStateM.bind, require_of_status h]
  show (if s.segments.length < 2 then pure () else
    MonadExcept.ofExcept (s.segments.mergeAdjacent gap) >>= fun segments => do
      modify (·.withSegments segments)
      modify fun s => { s with version := s.version + 1 } : Change Unit) s = _
  split
  · rfl
  · cases s.segments.mergeAdjacent gap <;> rfl

/-- While a session is processing, completing it is composing the text of its segments, if there are
any. -/
theorem complete_eq_of_processing (h : s.status = .processing) (now : Instant) :
    complete now s =
      if s.segments.isEmpty then .error .noSegments s
      else match s.segments.fullText with
        | .ok text => .ok () (s.completedWith text now)
        | .error refusal => .error refusal s := by
  show EStateM.bind (Session.require .processing .complete) _ s = _
  rw [EStateM.bind, require_of_status h]
  show (if s.segments.isEmpty then throw .noSegments else
    MonadExcept.ofExcept s.segments.fullText >>= fun text => modify (·.completedWith text now) :
      Change Unit) s = _
  split
  · rfl
  · cases s.segments.fullText <;> rfl

/-- A session that is processing is completed if there are segments and their text can be had. -/
theorem complete_of_processing {text : Text} (h : s.status = .processing) (hsome : s.segments ≠ [])
    (htext : s.segments.fullText = .ok text) (now : Instant) :
    complete now s = .ok () (s.completedWith text now) := by
  have hempty : ¬ s.segments.isEmpty = true := by simpa using hsome
  rw [complete_eq_of_processing h, if_neg hempty, htext]

/-- What a command that is carried out does is one of the effects. -/
theorem effect_of_perform {now : Instant} {command : Command}
    (h : perform now command s = .ok () next) : Effect now s command next := by
  rcases settles_perform now command s with ⟨next', heq, heffect⟩ | ⟨refusal, heq⟩
  · rw [h] at heq
    cases heq
    exact heffect
  · rw [h] at heq
    cases heq

/-- A command that is refused changes nothing. -/
theorem eq_of_perform_error {now : Instant} {command : Command} {refusal : Refusal}
    (h : perform now command s = .error refusal next) : next = s := by
  rcases settles_perform now command s with ⟨next', heq, heffect⟩ | ⟨refusal', heq⟩
  · rw [h] at heq
    cases heq
  · rw [h] at heq
    cases heq
    rfl

/-- A step of a run has an effect, or it is refused and changes nothing. -/
theorem after_cases (s : Session) (step : Instant × Command) :
    (perform step.1 step.2 s = .ok () (s.after step) ∧ Effect step.1 s step.2 (s.after step)) ∨
      (∃ refusal, perform step.1 step.2 s = .error refusal s) ∧ s.after step = s := by
  rcases settles_perform step.1 step.2 s with ⟨next, heq, heffect⟩ | ⟨refusal, heq⟩
  · left
    rw [after, afterwards, heq]
    exact ⟨rfl, heffect⟩
  · right
    rw [after, afterwards, heq]
    exact ⟨⟨refusal, rfl⟩, rfl⟩

end Open

/-! ## Effects on the segments -/

section Segments

variable {s next : Session} {now : Instant} {command : Command}

/-- Reports are put in the outbox and counted; nothing else changes. -/
theorem foldl_record (s : Session) (reports : List Happening) :
    reports.foldl record s = { s with
      outbox := ⟨s.outbox.pending ++ reports.map (Event.mk s.id)⟩
      version := s.version + reports.length } := by
  -- the reports are counted one by one, so the session varies
  induction reports generalizing s with
  | nil =>
    rw [List.foldl_nil, List.map_nil, List.append_nil]
    rfl
  | cons report rest ih =>
    rw [List.foldl_cons, ih, List.map_cons, List.length_cons]
    simp only [record, Outbox.pending_push, List.append_assoc, List.singleton_append]
    congr 1
    omega

/-- The segments that are there, with the confidence over them, change nothing. -/
theorem withSegments_self (h : s.confidence = s.segments.confidence) :
    s.withSegments s.segments = s := by
  rw [withSegments, ← h]

/-- A batch can be staged exactly if it fits. Its segments are placed one after the other, and each is
reported with the progress made. -/
theorem stage_eq_ok_iff {recording : Option Duration} {timeline : Timeline} {batch : List Segment}
    {staged : Timeline × List Happening} :
    stage recording timeline batch = .ok staged ↔ timeline.Fits batch ∧
      staged = (timeline.placed batch, List.zipWith Happening.segmentProcessed (batch.map (·.id))
        (timeline.progressAlong recording batch)) := by
  induction batch generalizing timeline staged with
  | nil =>
    constructor
    · intro h
      cases h
      exact ⟨Timeline.fits_nil timeline, rfl⟩
    · rintro ⟨-, rfl⟩
      rfl
  | cons segment rest ih =>
    rw [Timeline.fits_cons_iff]
    constructor
    · intro h
      obtain ⟨accepted, haccept, h⟩ := bind_eq_ok_iff.1 h
      -- the rest is staged against the timeline that the first has been placed in
      obtain ⟨more, hrest, h⟩ := bind_eq_ok_iff.1 h
      cases h
      obtain ⟨hclear, rfl⟩ := Timeline.accept_eq_ok_iff.1 haccept
      obtain ⟨hfits, rfl⟩ := ih.1 hrest
      exact ⟨⟨hclear, hfits⟩, rfl⟩
    · rintro ⟨⟨hclear, hfits⟩, rfl⟩
      exact bind_eq_ok_iff.2 ⟨_, Timeline.accept_eq_ok_iff.2 ⟨hclear, rfl⟩,
        bind_eq_ok_iff.2 ⟨_, ih.2 ⟨hfits, rfl⟩, rfl⟩⟩

/-- What survives the accepting of a segment survives the staging of a batch. -/
theorem stage_invariant {P : Timeline → Prop} {recording : Option Duration}
    (accept : ∀ {t segment t'}, P t → t.accept segment = .ok t' → P t') {timeline : Timeline}
    {batch : List Segment} {staged : Timeline × List Happening} (first : P timeline)
    (h : stage recording timeline batch = .ok staged) : P staged.1 := by
  induction batch generalizing timeline staged with
  | nil =>
    cases h
    exact first
  | cons segment rest ih =>
    obtain ⟨between, haccept, h⟩ := bind_eq_ok_iff.1 h
    obtain ⟨⟨segments, reports⟩, hrest, h⟩ := bind_eq_ok_iff.1 h
    cases h
    -- the invariant goes through the first segment and from there to the rest
    have hsegments : P segments := ih (accept first haccept) hrest
    exact hsegments

/-- What a merge makes of the segments. -/
theorem Effect.merged {gap : Float} (h : Effect now s (.merge gap) next) :
    s.segments.mergeAdjacent gap = .ok next.segments ∧ next.status = .processing := by
  cases h with
  | mergeFew processing few =>
    refine ⟨?_, processing⟩
    -- a list of fewer than two segments has nothing to merge
    match hsegments : s.segments, few with
    | [], _ => rfl
    | [_], _ => rfl
  | merge processing many merged => exact ⟨merged, processing⟩

/-- An effect empties the timeline, accepts segments one after the other, merges, or leaves the
timeline as it is. -/
theorem Effect.segments_invariant {P : Timeline → Prop} (h : Effect now s command next)
    (first : P s.segments) (nil : P [])
    (accept : ∀ {t segment t'}, P t → t.accept segment = .ok t' → P t')
    (merge : ∀ {gap segments}, command = .merge gap → s.segments.mergeAdjacent gap = .ok segments →
      P segments) : P next.segments := by
  cases h with
  | start pending => exact nil
  | add processing accepted => exact accept first accepted
  | addAll processing staged =>
    rw [foldl_record]
    exact stage_invariant accept first staged
  | merge processing many merged => exact merge rfl merged
  | mergeFew | complete | failLate | fail | cancel | drain => exact first

end Segments

/-! ## Runs -/

section Runs

variable {s : Session}

/-- What holds of a session at first, and survives every effect and every refusal of a step, holds
after every run. It may speak of the steps so far. -/
theorem run_induction {P : List (Instant × Command) → Session → Prop} (first : P [] s)
    (refused : ∀ {steps now s' command refusal}, P steps s' →
      perform now command s' = .error refusal s' → P (steps ++ [(now, command)]) s')
    (effect : ∀ {steps now s' command next}, P steps s' → Effect now s' command next →
      P (steps ++ [(now, command)]) next) (steps : List (Instant × Command)) :
    P steps (s.run steps) := by
  -- on the run from its end: the last step starts where the run before it has led
  induction steps using List.reverseRecOn with
  | nil => exact first
  | append_singleton steps step ih =>
    rw [run_append, run_cons, run_nil]
    rcases after_cases (s.run steps) step with ⟨-, heffect⟩ | ⟨⟨refusal, hrefused⟩, hsame⟩
    · exact effect ih heffect
    · rw [hsame]
      exact refused ih hrefused

/-- A property of sessions that survives every effect holds after every run. -/
theorem run_invariant {P : Session → Prop} (first : P s)
    (effect : ∀ {now s' command next}, P s' → Effect now s' command next → P next)
    (steps : List (Instant × Command)) : P (s.run steps) :=
  run_induction (P := fun _ => P) first (fun h _ => h) effect steps

end Runs

end SpeechTranscript.Session
