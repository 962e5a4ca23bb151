import SpeechTranscript.Proofs.Session.Effect

/-!
# The history of a session

Everything that happens to a session is put into its outbox once and taken from there in batches.
The batches taken so far and the events that still wait make up its history. Whatever operations are
carried out, refused or ignored, the history reads as one of the few words that go with the status.

* `Status.histories`: the words that go with a status.
* `taken_append_pending`: the history is what the steps have recorded.
* `history_run`: the history of a new session after every run.
-/

namespace SpeechTranscript

/-- What happened, without the particulars. -/
inductive Kind where
  | started
  | segmentProcessed
  | completed
  | failed
  | cancelled
  deriving DecidableEq

namespace Happening

def kind : Happening → Kind
  | .started .. => .started
  | .segmentProcessed .. => .segmentProcessed
  | .completed .. => .completed
  | .failed .. => .failed
  | .cancelled _ => .cancelled

/-- The name of the segment that was processed, if it was that. -/
def segment? : Happening → Option String
  | .segmentProcessed segment _ => some segment
  | _ => none

end Happening

namespace Status

open RegularExpression

/-- A start with the segments that were processed since. -/
def opening : RegularExpression Kind := char .started * star (char .segmentProcessed)

/-- A start after which at least one segment was processed. -/
def fullOpening : RegularExpression Kind :=
  char .started * (char .segmentProcessed * star (char .segmentProcessed))

/-- The histories, told by kinds, of the sessions with a status. -/
def histories : Status → RegularExpression Kind
  | .pending => 1
  | .processing => opening
  | .completed => fullOpening * char .completed
  | .cancelled => (1 + opening) * (char .cancelled * star (char .cancelled))
  | .failed => (1 + opening) * star (char .cancelled) * char .failed

end Status

namespace Command

/-- The segments that a command is to add. -/
def segments : Command → List Segment
  | .add segment => [segment]
  | .addAll batch => batch
  | _ => []

/-- The gap that a command is to merge within. -/
def gap? : Command → Option Float
  | .merge gap => some gap
  | _ => none

end Command

namespace Session

/-! ## Notes on a run -/

section Notes

variable {α : Type} (note : Session → Instant × Command → List α)

/-- What is noted of every step of a run, one after the other. -/
def noted (s : Session) : List (Instant × Command) → List α
  | [] => []
  | step :: rest => note s step ++ noted (s.after step) rest

/-- What is noted in a run is noted in its first part and then in the rest. -/
theorem noted_append (s : Session) (steps more : List (Instant × Command)) :
    noted note s (steps ++ more) = noted note s steps ++ noted note (s.run steps) more := by
  induction steps generalizing s with
  | nil => rfl
  | cons step rest ih => rw [List.cons_append, noted, noted, ih, List.append_assoc, run_cons]

/-- The notes of a run with one more step. -/
theorem noted_append_singleton (s : Session) (steps : List (Instant × Command))
    (step : Instant × Command) :
    noted note s (steps ++ [step]) = noted note s steps ++ note (s.run steps) step := by
  rw [noted_append, noted, noted, List.append_nil]

end Notes

/-- Whether a step is not refused. -/
def carriesOut (s : Session) (step : Instant × Command) : Bool :=
  match perform step.1 step.2 s with
  | .ok .. => true
  | .error .. => false

/-- The events that a step takes from the session. -/
def takenIn (s : Session) (step : Instant × Command) : List Event :=
  match step.2 with
  | .drain => s.drain.1
  | _ => []

/-- The events that a step puts into the outbox: what it takes and what it leaves, less what was
there before. -/
def recordedIn (s : Session) (step : Instant × Command) : List Event :=
  (takenIn s step ++ (s.after step).outbox.pending).drop s.outbox.pending.length

/-- The segments that a step adds, in the order in which they are accepted. -/
def acceptedIn (s : Session) (step : Instant × Command) : List Segment :=
  if s.carriesOut step then step.2.segments else []

/-- The gap of the merge that a step carries out on two segments or more. -/
def mergedIn (s : Session) (step : Instant × Command) : List Float :=
  if s.carriesOut step && 2 ≤ s.segments.length then step.2.gap?.toList else []

/-- The batches of events taken in a run, one after the other. -/
abbrev taken (s : Session) (steps : List (Instant × Command)) : List Event := noted takenIn s steps

/-- The events recorded in a run. -/
abbrev recorded (s : Session) (steps : List (Instant × Command)) : List Event :=
  noted recordedIn s steps

/-- The segments accepted in a run. -/
abbrev accepted (s : Session) (steps : List (Instant × Command)) : List Segment :=
  noted acceptedIn s steps

/-- The merges of two segments or more in a run. -/
abbrev merges (s : Session) (steps : List (Instant × Command)) : List Float :=
  noted mergedIn s steps

/-- All events of a run: those taken, then those that still wait. -/
def history (s : Session) (steps : List (Instant × Command)) : List Event :=
  taken s steps ++ (s.run steps).outbox.pending

/-! ## Words -/

section Words

open Computability RegularExpression Status

variable {w : List Kind}

/-- A word with one more letter. -/
theorem append_mem_mul_char {P : RegularExpression Kind} (letter : Kind) (h : w ∈ P.matches') :
    w ++ [letter] ∈ (P * char letter).matches' := by
  rw [matches'_mul]
  exact Language.append_mem_mul h (Set.mem_singleton _)

/-- A letter any number of times is in the star of the letter. -/
theorem replicate_mem_star (letter : Kind) (n : ℕ) :
    List.replicate n letter ∈ (star (char letter)).matches' := by
  induction n with
  | zero =>
    rw [matches'_star]
    exact Language.nil_mem_kstar _
  | succ n ih =>
    rw [List.replicate_succ']
    have hmem := append_mem_mul_char letter ih
    rw [matches'_mul, matches'_star] at hmem
    rw [matches'_star]
    exact (kstar_mul_le_kstar : (char letter).matches'∗ * (char letter).matches' ≤ _) hmem

/-- Processing segments keeps an opening, and makes it a full one. -/
theorem opening_append_segments (h : w ∈ opening.matches') (n : ℕ) :
    w ++ List.replicate (n + 1) Kind.segmentProcessed ∈ fullOpening.matches' := by
  have hsegments : List.replicate (n + 1) Kind.segmentProcessed ∈
      (star (char Kind.segmentProcessed) * char Kind.segmentProcessed).matches' := by
    rw [List.replicate_succ']
    exact append_mem_mul_char _ (replicate_mem_star _ n)
  have happend := Language.append_mem_mul h hsegments
  -- the segments before and after fall together
  have hsame : opening.matches' *
      (star (char Kind.segmentProcessed) * char Kind.segmentProcessed).matches' =
        fullOpening.matches' := by
    simp only [opening, fullOpening, matches'_mul, matches'_star]
    rw [mul_assoc, ← mul_assoc (_ ∗), kstar_mul_kstar, Language.mul_self_kstar_comm]
  rwa [hsame] at happend

theorem fullOpening_le : fullOpening.matches' ≤ opening.matches' := by
  simp only [fullOpening, opening, matches'_mul, matches'_star]
  exact mul_le_mul_right mul_kstar_le_kstar _

/-- As long as a session can be failed or cancelled, it has been cancelled any number of times, with
or without a start before. -/
theorem histories_le_of_alive {status : Status} (h : status.isTerminal = false) :
    status.histories.matches' ≤ ((1 + opening) * star (char Kind.cancelled)).matches' := by
  have hnone : 1 ≤ (star (char Kind.cancelled)).matches' := by
    rw [matches'_star]
    exact one_le_kstar
  cases status with
  | completed => contradiction
  | failed => contradiction
  | pending =>
    rw [matches'_mul, matches'_add]
    exact le_mul_of_le_of_one_le (le_add_of_nonneg_right zero_le) hnone
  | processing =>
    rw [matches'_mul, matches'_add]
    exact le_mul_of_le_of_one_le (le_add_of_nonneg_left zero_le) hnone
  -- one more cancellation is still a number of cancellations
  | cancelled =>
    rw [histories, matches'_mul, matches'_mul, matches'_mul, matches'_star]
    exact mul_le_mul_right mul_kstar_le_kstar _

theorem append_failed_mem {status : Status} (h : status.isTerminal = false)
    (hw : w ∈ status.histories.matches') : w ++ [Kind.failed] ∈ (histories .failed).matches' :=
  append_mem_mul_char _ (histories_le_of_alive h hw)

/-- A history that can go on can be cancelled, and then again. -/
theorem append_cancelled_mem {status : Status} (h : status.isTerminal = false)
    (hw : w ∈ status.histories.matches') :
    w ++ [Kind.cancelled] ∈ (histories .cancelled).matches' := by
  have happend := append_mem_mul_char .cancelled (histories_le_of_alive h hw)
  simp only [matches'_mul, matches'_star, mul_assoc, Language.mul_self_kstar_comm] at happend
  simpa only [histories, matches'_mul, matches'_star] using happend

end Words

/-! ## One step -/

section Step

variable {s next : Session} {now : Instant} {command : Command} {w : List Kind}

/-- What has been told of a session goes with its status. Once segments have been added, it has been
told of at least one. -/
structure Told (s : Session) (w : List Kind) : Prop where
  mem_histories : w ∈ s.status.histories.matches'
  mem_fullOpening : s.status = .processing → s.segments ≠ [] → w ∈ Status.fullOpening.matches'

/-- Until it has ended, the histories of a session that is processing are those of an opening. -/
theorem Told.mem_opening (h : Told s w) (hs : s.status = .processing) :
    w ∈ Status.opening.matches' := by
  have hmem := h.mem_histories
  rwa [hs] at hmem

/-- The first event of a history tells of the start. -/
theorem Told.begun (h : Told s w) (hs : s.status = .pending) (recording : Option Duration)
    (model : String) (now : Instant) :
    Told (s.begun recording model now) (w ++ [.started]) where
  mem_histories := by
    have hmem := h.mem_histories
    rw [hs] at hmem
    -- nothing was told before
    obtain rfl : w = [] := hmem
    have hopening := Language.append_mem_mul (Set.mem_singleton [Kind.started])
      (replicate_mem_star .segmentProcessed 0)
    exact hopening
  mem_fullOpening := fun _ hsome => absurd rfl hsome

/-- Of a batch each segment is reported once, in order. -/
theorem reports_of_stage {recording : Option Duration} {timeline segments : Timeline}
    {batch : List Segment} {reports : List Happening}
    (h : stage recording timeline batch = .ok (segments, reports)) :
    reports.map (·.kind) = List.replicate batch.length .segmentProcessed ∧
      reports.filterMap (·.segment?) = batch.map (·.id) := by
  -- one report for each segment that is staged
  induction batch generalizing timeline segments reports with
  | nil =>
    cases h
    exact ⟨rfl, rfl⟩
  | cons segment rest ih =>
    obtain ⟨staged, -, h⟩ := bind_eq_ok_iff.1 h
    obtain ⟨⟨segments', reports'⟩, hrest, h⟩ := bind_eq_ok_iff.1 h
    cases h
    obtain ⟨hkinds, hsegments⟩ := ih hrest
    constructor
    · rw [List.map_cons, hkinds]
      rfl
    · rw [List.map_cons, ← hsegments]
      rfl

/-- Segments that are added are told of, and at least one of them if there are any. -/
theorem Told.processed (h : Told s w) (hs : s.status = .processing) (n : ℕ)
    (hnext : next.status = s.status) (hsegments : n = 0 → next.segments = s.segments) :
    Told next (w ++ List.replicate n .segmentProcessed) := by
  cases n with
  | zero =>
    rw [List.replicate_zero, List.append_nil]
    exact ⟨hnext ▸ h.mem_histories, fun _ => hsegments rfl ▸ h.mem_fullOpening hs⟩
  | succ n =>
    have hfull := opening_append_segments (h.mem_opening hs) n
    refine ⟨?_, fun _ _ => hfull⟩
    rw [hnext, hs]
    exact fullOpening_le hfull

theorem Told.merged (h : Told s w) (hs : s.status = .processing) (hsome : s.segments ≠ [])
    (hnext : next.status = s.status) : Told next w :=
  ⟨hnext ▸ h.mem_histories, fun _ _ => h.mem_fullOpening hs hsome⟩

/-- A session that has segments can be completed, which is told last. -/
theorem Told.completedWith (h : Told s w) (hs : s.status = .processing) (hsome : s.segments ≠ [])
    (text : Text) (now : Instant) : Told (s.completedWith text now) (w ++ [.completed]) :=
  ⟨append_mem_mul_char _ (h.mem_fullOpening hs hsome), nofun⟩

theorem Told.failedWith (h : Told s w) (hs : s.status.isTerminal = false) (message code : String)
    (now : Instant) : Told (s.failedWith message code now) (w ++ [.failed]) :=
  ⟨append_failed_mem hs h.mem_histories, nofun⟩

theorem Told.cancelledFor (h : Told s w) (hs : s.status.isTerminal = false)
    (reason : Option String) (now : Instant) :
    Told (s.cancelledFor reason now) (w ++ [.cancelled]) :=
  ⟨append_cancelled_mem hs h.mem_histories, nofun⟩

/-- What a step that is carried out reports, how it moves the version and what it adds to the
history. -/
structure Reported (s : Session) (step : Instant × Command) (next : Session)
    (reports : List Happening) : Prop where
  id_eq : next.id = s.id
  events_eq : takenIn s step ++ next.outbox.pending =
    s.outbox.pending ++ reports.map (Event.mk s.id)
  segments_eq : reports.filterMap (·.segment?) = step.2.segments.map (·.id)
  version_eq : next.version = s.version + reports.length +
    (if 2 ≤ s.segments.length then step.2.gap?.toList else []).length
  told : ∀ w, Told s w → Told next (w ++ reports.map (·.kind))

/-- One report of a change that left the outbox and the version alone. -/
theorem Reported.record {step : Instant × Command} {changed : Session} {what : Happening}
    (hid : changed.id = s.id) (houtbox : changed.outbox = s.outbox)
    (hversion : changed.version = s.version) (htaken : takenIn s step = [])
    (hsegments : [what].filterMap (·.segment?) = step.2.segments.map (·.id))
    (hgap : step.2.gap? = none)
    (htold : ∀ w, Told s w → Told (changed.record what) (w ++ [what.kind])) :
    Reported s step (changed.record what) [what] where
  id_eq := hid
  events_eq := by
    rw [htaken, List.nil_append, Session.record, Outbox.pending_push, houtbox, hid]
    rfl
  segments_eq := hsegments
  version_eq := by
    rw [hgap, Option.toList_none, ite_self]
    exact congrArg (· + 1) hversion
  told := htold

/-- A session that stays as it is reports nothing. -/
theorem Reported.same {step : Instant × Command} (htaken : takenIn s step = [])
    (hsegments : step.2.segments = [])
    (hgap : 2 ≤ s.segments.length → step.2.gap? = none) : Reported s step s [] where
  id_eq := rfl
  events_eq := by rw [htaken, List.nil_append, List.map_nil, List.append_nil]
  segments_eq := by rw [hsegments]; rfl
  version_eq := by
    split
    · rename_i h
      rw [hgap h]
      rfl
    · rfl
  told := fun w h => by rwa [List.map_nil, List.append_nil]

/-- Every effect is reported. -/
theorem Effect.exists_reported (h : Effect now s command next) :
    ∃ reports, Reported s (now, command) next reports := by
  cases h with
  | start pending =>
    exact ⟨_, .record rfl rfl rfl rfl rfl rfl fun w h => h.begun pending _ _ _⟩
  | add processing accepted =>
    refine ⟨_, .record rfl rfl rfl rfl rfl rfl fun w h => ?_⟩
    refine Told.processed h processing 1 ?_ nofun
    rfl
  | @addAll batch segments reports processing staged =>
    -- one report for each segment of the batch, in its order
    obtain ⟨hkinds, hids⟩ := reports_of_stage staged
    refine ⟨reports, ?_⟩
    rw [foldl_record]
    refine ⟨rfl, rfl, hids, ?_, fun w h => ?_⟩
    · simp [Command.gap?, withSegments]
    · rw [hkinds]
      refine Told.processed h processing _ ?_ fun hnone => ?_
      · rfl
      · obtain rfl := List.length_eq_zero_iff.1 hnone
        cases staged
        rfl
  | mergeFew processing few => exact ⟨[], .same rfl rfl fun h => absurd few (not_lt.2 h)⟩
  | merge processing many merged =>
    -- no event tells of a merge, but the version does
    refine ⟨[], rfl, ?_, rfl, ?_, fun w h => ?_⟩
    · rw [List.map_nil, List.append_nil]
      rfl
    · rw [if_pos many]
      rfl
    · rw [List.map_nil, List.append_nil]
      have hsome : s.segments ≠ [] := List.ne_nil_of_length_pos (by omega)
      exact h.merged processing hsome rfl
  | complete processing nonempty composed =>
    exact ⟨_, .record rfl rfl rfl rfl rfl rfl fun w h => h.completedWith processing nonempty _ _⟩
  | failLate terminal => exact ⟨[], .same rfl rfl fun _ => rfl⟩
  | fail alive =>
    exact ⟨_, .record rfl rfl rfl rfl rfl rfl fun w h => h.failedWith alive _ _ _⟩
  | cancel alive =>
    exact ⟨_, .record rfl rfl rfl rfl rfl rfl fun w h => h.cancelledFor alive _ _⟩
  | drain =>
    refine ⟨[], rfl, ?_, rfl, ?_, fun w h => ?_⟩
    · rw [List.map_nil]
      rfl
    · have hgap : (now, Command.drain).2.gap?.toList = [] := rfl
      rw [hgap, ite_self]
      rfl
    · rw [List.map_nil, List.append_nil]
      exact ⟨h.mem_histories, h.mem_fullOpening⟩

/-- A refused command takes no events. -/
theorem takenIn_of_refused {step : Instant × Command} {refusal : Refusal}
    (h : perform step.1 step.2 s = .error refusal s) : takenIn s step = [] := by
  obtain ⟨now, command⟩ := step
  cases command with
  | drain => cases h
  | _ => rfl

/-- What a step takes, and what it leaves in the outbox, was there or is recorded by it. -/
theorem takenIn_append_pending (s : Session) (step : Instant × Command) :
    takenIn s step ++ (s.after step).outbox.pending = s.outbox.pending ++ recordedIn s step := by
  have hkept : ∃ events, takenIn s step ++ (s.after step).outbox.pending =
      s.outbox.pending ++ events := by
    rcases after_cases s step with ⟨-, heffect⟩ | ⟨⟨refusal, hrefused⟩, hsame⟩
    · obtain ⟨reports, hreported⟩ := heffect.exists_reported
      exact ⟨_, hreported.events_eq⟩
    · rw [hsame, takenIn_of_refused hrefused, List.nil_append]
      exact ⟨[], (List.append_nil _).symm⟩
  obtain ⟨events, hevents⟩ := hkept
  rw [recordedIn, hevents, List.drop_left]

end Step

/-! ## Runs -/

section Runs

variable {first : Session}

/-- The events taken in a run and those that still wait were there before or are recorded in it. -/
theorem taken_append_pending (s : Session) (steps : List (Instant × Command)) :
    taken s steps ++ (s.run steps).outbox.pending = s.outbox.pending ++ recorded s steps := by
  -- step by step from the front: what a step leaves is what the rest of the run starts with
  induction steps generalizing s with
  | nil => exact (List.append_nil _).symm
  | cons step rest ih =>
    calc taken s (step :: rest) ++ (s.run (step :: rest)).outbox.pending
        = takenIn s step ++ (taken (s.after step) rest ++
            ((s.after step).run rest).outbox.pending) := List.append_assoc ..
      _ = takenIn s step ++ ((s.after step).outbox.pending ++ recorded (s.after step) rest) := by
          rw [ih]
      _ = s.outbox.pending ++ (recordedIn s step ++ recorded (s.after step) rest) := by
          rw [← List.append_assoc, takenIn_append_pending, List.append_assoc]

/-- The history goes on with what a step records. -/
theorem history_append_singleton (first : Session) (steps : List (Instant × Command))
    (step : Instant × Command) :
    history first (steps ++ [step]) = history first steps ++ recordedIn (first.run steps) step := by
  rw [history, taken, noted_append_singleton, run_append, run_cons, run_nil, List.append_assoc,
    takenIn_append_pending, ← List.append_assoc]
  rfl

/-- What the history of a run says of the session, and the notes on the run that go with it. -/
structure Chronicled (first : Session) (steps : List (Instant × Command)) : Prop where
  id_eq : (first.run steps).id = first.id
  told : Told (first.run steps) ((history first steps).map (·.what.kind))
  session_eq : ∀ event ∈ history first steps, event.session = first.id
  segments_eq : (history first steps).filterMap (·.what.segment?) =
    (accepted first steps).map (·.id)
  version_eq : (first.run steps).version =
    (history first steps).length + (merges first steps).length

/-- A step that is refused leaves the history and the notes as they are. -/
theorem Chronicled.refused {steps : List (Instant × Command)} (h : Chronicled first steps)
    {step : Instant × Command} {refusal : Refusal}
    (hrefused : perform step.1 step.2 (first.run steps) = .error refusal (first.run steps)) :
    Chronicled first (steps ++ [step]) := by
  -- a refused command carries nothing out, so nothing is noted of it
  have hout : (first.run steps).carriesOut step = false := by rw [carriesOut, hrefused]
  have hafter : (first.run steps).after step = first.run steps := by
    rw [after, afterwards, hrefused]
  have hrun : first.run (steps ++ [step]) = first.run steps := by
    rw [run_append, run_cons, run_nil, hafter]
  have hhistory : history first (steps ++ [step]) = history first steps := by
    rw [history_append_singleton, recordedIn, takenIn_of_refused hrefused, hafter, List.nil_append,
      List.drop_length, List.append_nil]
  have haccepted : accepted first (steps ++ [step]) = accepted first steps := by
    rw [accepted, noted_append_singleton, acceptedIn, hout]
    exact List.append_nil _
  have hmerges : merges first (steps ++ [step]) = merges first steps := by
    rw [merges, noted_append_singleton, mergedIn, hout]
    exact List.append_nil _
  constructor
  · rw [hrun, h.id_eq]
  · rw [hrun, hhistory]
    exact h.told
  · rw [hhistory]
    exact h.session_eq
  · rw [hhistory, haccepted]
    exact h.segments_eq
  · rw [hrun, hhistory, hmerges]
    exact h.version_eq

/-- A step that is carried out adds its reports to the history. -/
theorem Chronicled.reported {steps : List (Instant × Command)} (h : Chronicled first steps)
    {step : Instant × Command} (hout : (first.run steps).carriesOut step = true)
    {reports : List Happening}
    (hreported : Reported (first.run steps) step ((first.run steps).after step) reports) :
    Chronicled first (steps ++ [step]) := by
  have hrun : first.run (steps ++ [step]) = (first.run steps).after step := by
    rw [run_append, run_cons, run_nil]
  -- the events of the command stand behind those of the run so far
  have hhistory : history first (steps ++ [step]) =
      history first steps ++ reports.map (Event.mk first.id) := by
    rw [history_append_singleton, recordedIn, hreported.events_eq, List.drop_left, h.id_eq]
  have haccepted : accepted first (steps ++ [step]) = accepted first steps ++ step.2.segments := by
    rw [accepted, noted_append_singleton, acceptedIn, if_pos hout]
  have hmerges : merges first (steps ++ [step]) = merges first steps ++
      (if 2 ≤ (first.run steps).segments.length then step.2.gap?.toList else []) := by
    rw [merges, noted_append_singleton, mergedIn, hout, Bool.true_and]
    simp only [decide_eq_true_eq]
  constructor
  · rw [hrun, hreported.id_eq, h.id_eq]
  · rw [hrun, hhistory, List.map_append, List.map_map]
    exact hreported.told _ h.told
  · rw [hhistory]
    intro event hevent
    rcases List.mem_append.1 hevent with hold | hnew
    · exact h.session_eq event hold
    · obtain ⟨what, -, rfl⟩ := List.mem_map.1 hnew
      rfl
  · rw [hhistory, haccepted, List.filterMap_append, List.filterMap_map, h.segments_eq,
      List.map_append, ← hreported.segments_eq]
    rfl
  · rw [hrun, hreported.version_eq, h.version_eq, hhistory, hmerges, List.length_append,
      List.length_append, List.length_map]
    omega

/-- A session that has been told of as it should be at first is so after every run. -/
theorem chronicled_run (h : Chronicled first []) (steps : List (Instant × Command)) :
    Chronicled first steps := by
  -- on the run from its end, as the notes of the last step stand at the end
  induction steps using List.reverseRecOn with
  | nil => exact h
  | append_singleton steps step ih =>
    rcases after_cases (first.run steps) step with ⟨hok, heffect⟩ | ⟨⟨refusal, hrefused⟩, -⟩
    · obtain ⟨reports, hreported⟩ := heffect.exists_reported
      exact ih.reported (by rw [carriesOut, hok]) hreported
    · exact ih.refused hrefused

/-- A new session has no history yet. -/
theorem chronicled_new (id audioId : String) (language : Language) (parameters : Parameters) :
    Chronicled ((new id audioId language).withParameters parameters) [] :=
  ⟨rfl, ⟨rfl, nofun⟩, nofun, rfl, rfl⟩

/-- The history of a session after every run: a word that goes with its status, all of its own
events, one for each segment in the order in which they were accepted. The version counts the events
and the merges of two segments or more. -/
theorem history_run (id audioId : String) (language : Language) (parameters : Parameters)
    (steps : List (Instant × Command)) :
    let first := (new id audioId language).withParameters parameters
    let s := first.run steps
    (history first steps).map (·.what.kind) ∈ s.status.histories.matches' ∧
      (∀ event ∈ history first steps, event.session = id) ∧
      (history first steps).filterMap (·.what.segment?) = (accepted first steps).map (·.id) ∧
      s.version = (history first steps).length + (merges first steps).length := by
  intro first s
  have hchronicled := chronicled_run (chronicled_new id audioId language parameters) steps
  exact ⟨hchronicled.told.mem_histories, hchronicled.session_eq, hchronicled.segments_eq,
    hchronicled.version_eq⟩

end Runs

end Session

end SpeechTranscript
