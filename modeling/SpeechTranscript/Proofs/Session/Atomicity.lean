import SpeechTranscript.Proofs.Session.Effect

/-!
# All or nothing

An operation that is refused leaves the session as it was, also where the refusal comes late: at a
later segment of a batch, at a later merge, or when the final text is put together. Once a session is
completed or failed, every operation is refused or ignored, and only its events can still be taken.

* `perform_of_isTerminal`: what the operations give in the end.
* `unchanged_run`: what stays after every run.
-/

namespace SpeechTranscript

/-- The operation that a command can be refused. -/
def Command.operation? : Command → Option Operation
  | .start .. => some .start
  | .add _ | .addAll _ => some .addSegment
  | .merge _ => some .mergeSegments
  | .complete => some .complete
  | .cancel _ => some .cancel
  | .fail .. | .drain => none

namespace Session

variable {s : Session}

/-- The session without the events that wait. -/
def drained (s : Session) : Session := { s with outbox := .empty }

theorem require_bind_of_ne {status : Status} {operation : Operation} (h : s.status ≠ status)
    (rest : Unit → Change Unit) :
    (Session.require status operation >>= rest) s = .error (.wrongStatus operation s.status) s := by
  show ((if s.status = status then pure () else throw (.wrongStatus operation s.status)) >>= rest :
    Change Unit) s = _
  rw [if_neg h]
  rfl

/-- In the end everything is refused for the status, except that a failure is ignored and that
events can be taken. -/
theorem perform_of_isTerminal (h : s.status.isTerminal = true) (now : Instant) (command : Command) :
    perform now command s =
      match command.operation? with
      | some operation => .error (.wrongStatus operation s.status) s
      | none => .ok () (if command = .drain then s.drained else s) := by
  have hpending : s.status ≠ .pending := fun heq => by rw [heq] at h; contradiction
  have hprocessing : s.status ≠ .processing := fun heq => by rw [heq] at h; contradiction
  cases command with
  | start recording model => exact require_bind_of_ne hpending _
  | add segment => exact require_bind_of_ne hprocessing _
  | addAll batch => exact require_bind_of_ne hprocessing _
  | merge gap => exact require_bind_of_ne hprocessing _
  | complete => exact require_bind_of_ne hprocessing _
  | fail message code =>
    -- a failure after the end is ignored and not refused
    have hfail : s.fail message code now = s := if_pos h
    exact congrArg (EStateM.Result.ok ()) hfail
  | cancel reason =>
    show (if s.status.isTerminal then throw _ else modify _ : Change Unit) s = _
    rw [if_pos h]
    rfl
  | drain => rfl

/-- What the operations leave of a session in the end. -/
theorem after_of_isTerminal (h : s.status.isTerminal = true) (now : Instant) (command : Command) :
    s.after (now, command) = if command = .drain then s.drained else s := by
  rw [after, afterwards, perform_of_isTerminal h]
  cases command <;> rfl

/-- After every run, an operation that is refused leaves the session as it is, and once it is
completed or failed so does every operation, but for the events that are taken. -/
theorem unchanged_run (id audioId : String) (language : Language) (parameters : Parameters)
    (steps : List (Instant × Command)) :
    let s := ((new id audioId language).withParameters parameters).run steps
    (∀ now command refusal next, perform now command s = .error refusal next → next = s) ∧
      (s.status = .completed ∨ s.status = .failed → ∀ now command,
        s.after (now, command) = if command = .drain then s.drained else s) := by
  intro s
  refine ⟨fun now command refusal next hrefused => eq_of_perform_error hrefused, ?_⟩
  intro hstatus now command
  have hterminal : s.status.isTerminal = true := by rcases hstatus with h | h <;> rw [h] <;> rfl
  exact after_of_isTerminal hterminal now command

end Session

end SpeechTranscript
