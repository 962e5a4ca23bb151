import SpeechTranscript.Proofs.Session.Effect

/-!
# The fields of a session agree

A session stores what could be told from its status and its segments: the confidence, the final
text, the times, what went wrong. Every operation brings another part of these fields up to date;
through all runs they agree with each other.

* `Consistent`: what is meant by that.
* `consistent_run`: it holds after every run of a new session.
-/

namespace SpeechTranscript

/-- The reason that a command gives for cancelling. -/
def Command.reason? : Command → Option String
  | .cancel reason => reason
  | _ => none

namespace Session

/-- The last reason for cancelling given in a run. -/
def lastReason (steps : List (Instant × Command)) : Option String :=
  (steps.filterMap (·.2.reason?)).getLast?

/-- The stored fields agree with the status, the segments and the last reason given for
cancelling. -/
structure Consistent (reason : Option String) (s : Session) : Prop where
  confidence_eq : s.confidence = s.segments.confidence
  fullText_eq : s.fullText = s.segments.fullText
  finalText_iff : s.finalText.isSome = true ↔ s.status = .completed
  finished_iff : s.finished.isSome = true ↔
    s.status = .completed ∨ s.status = .failed ∨ s.status = .cancelled
  errorCode_iff : s.errorCode.isSome = true ↔ s.status = .failed
  message_of_failed : s.status = .failed → s.errorMessage.isSome = true
  no_message : s.status = .pending ∨ s.status = .processing ∨ s.status = .completed →
    s.errorMessage = none
  message_of_cancelled : s.status = .cancelled → s.errorMessage = reason
  started : s.status = .processing ∨ s.status = .completed → s.started.isSome = true
  segments_of_completed : s.status = .completed → s.segments ≠ []
  pending : s.status = .pending → s.segments = [] ∧ s.confidence = .zero ∧ s.version = 0 ∧
    s.outbox.isEmpty = true
  /-- Nobody has asked for an end yet. -/
  no_reason : s.status = .pending ∨ s.status = .processing → reason = none

section Consistent

variable {s next : Session} {reason : Option String} {now : Instant} {command : Command}

theorem lastReason_append (steps : List (Instant × Command)) (step : Instant × Command) :
    lastReason (steps ++ [step]) = step.2.reason?.or (lastReason steps) := by
  rw [lastReason, List.filterMap_append, List.getLast?_append]
  cases h : step.2.reason? <;> simp [h, lastReason]

/-- Without a final text the text is composed of the segments. -/
theorem fullText_of_none (h : s.finalText = none) : s.fullText = s.segments.fullText := by
  rw [fullText, h]

theorem confidence_nil : Timeline.confidence [] = .zero := by decide +kernel

theorem ne_of_isTerminal {status : Status} (hs : s.status.isTerminal = false)
    (h : status.isTerminal = true) : s.status ≠ status := fun heq => by
  rw [heq, h] at hs
  contradiction

/-- Cancelling is refused only when nothing can change any more. -/
theorem isTerminal_of_cancel_error {given : Option String} {refusal : Refusal}
    (h : cancel given now s = .error refusal next) : s.status.isTerminal = true := by
  cases hterminal : s.status.isTerminal with
  | true => rfl
  | false =>
    -- if anything can still change, cancelling is not refused
    have hok : cancel given now s = .ok () (s.cancelledFor given now) := by
      show (if s.status.isTerminal then throw _ else modify _ : Change Unit) s = _
      rw [if_neg (by rw [hterminal]; decide)]
      rfl
    rw [hok] at h
    cases h

namespace Consistent

theorem finalText_eq_none (h : Consistent reason s) (hs : s.status ≠ .completed) :
    s.finalText = none :=
  Option.not_isSome_iff_eq_none.1 fun hsome => hs (h.finalText_iff.1 hsome)

theorem errorCode_eq_none (h : Consistent reason s) (hs : s.status ≠ .failed) :
    s.errorCode = none :=
  Option.not_isSome_iff_eq_none.1 fun hsome => hs (h.errorCode_iff.1 hsome)

/-- As long as a session can be cancelled, its message is the last reason given. -/
theorem message_eq (h : Consistent reason s) (hs : s.status.isTerminal = false) :
    s.errorMessage = reason := by
  cases hstatus : s.status with
  | pending => rw [h.no_message (.inl hstatus), h.no_reason (.inl hstatus)]
  | processing => rw [h.no_message (.inr (.inl hstatus)), h.no_reason (.inr hstatus)]
  | cancelled => exact h.message_of_cancelled hstatus
  | completed => exact absurd hstatus (ne_of_isTerminal hs rfl)
  | failed => exact absurd hstatus (ne_of_isTerminal hs rfl)

/-- A new session is consistent. -/
theorem new (id audioId : String) (language : Language) (parameters : Parameters) :
    Consistent none ((Session.new id audioId language).withParameters parameters) where
  confidence_eq := confidence_nil.symm
  fullText_eq := rfl
  finalText_iff := by simp [Session.new, withParameters]
  finished_iff := by simp [Session.new, withParameters]
  errorCode_iff := by simp [Session.new, withParameters]
  message_of_failed := nofun
  no_message := fun _ => rfl
  message_of_cancelled := nofun
  started := by simp [Session.new, withParameters]
  segments_of_completed := nofun
  pending := fun _ => ⟨rfl, rfl, rfl, rfl⟩
  no_reason := fun _ => rfl

/-- A session that begins has nothing to agree on yet but its start. -/
theorem begun (h : Consistent reason s) (hs : s.status = .pending) (recording : Option Duration)
    (model : String) (now : Instant) : Consistent reason (s.begun recording model now) where
  confidence_eq := confidence_nil.symm
  fullText_eq := rfl
  finalText_iff := by simp [Session.begun, record]
  finished_iff := by simp [Session.begun, record]
  errorCode_iff := by simp [Session.begun, record]
  message_of_failed := nofun
  no_message := fun _ => rfl
  message_of_cancelled := nofun
  started := fun _ => rfl
  segments_of_completed := nofun
  pending := nofun
  no_reason := fun _ => h.no_reason (.inl hs)

/-- While it is processing, the segments of a session may change together with the confidence. -/
theorem withSegments (h : Consistent reason s) (hs : s.status = .processing) (segments : Timeline)
    (outbox : Outbox) (version : Nat) :
    Consistent reason { s.withSegments segments with outbox, version } where
  confidence_eq := rfl
  fullText_eq := fullText_of_none (h.finalText_eq_none (by rw [hs]; decide))
  finalText_iff := h.finalText_iff
  finished_iff := h.finished_iff
  errorCode_iff := h.errorCode_iff
  message_of_failed := h.message_of_failed
  no_message := h.no_message
  message_of_cancelled := h.message_of_cancelled
  started := h.started
  segments_of_completed := fun hcompleted => by
    rw [show s.status = .completed from hcompleted] at hs
    contradiction
  pending := fun hpending => by
    rw [show s.status = .pending from hpending] at hs
    contradiction
  no_reason := h.no_reason

/-- Completing sets the final text and the time of the end together. -/
theorem completedWith (h : Consistent reason s) (hs : s.status = .processing) {text : Text}
    (hsome : s.segments ≠ []) (htext : s.segments.fullText = .ok text) (now : Instant) :
    Consistent reason (s.completedWith text now) where
  confidence_eq := rfl
  fullText_eq := htext.symm
  finalText_iff := iff_of_true rfl rfl
  finished_iff := iff_of_true rfl (.inl rfl)
  errorCode_iff := by
    have hcode := h.errorCode_eq_none (by rw [hs]; decide)
    simp [Session.completedWith, record, hcode]
  message_of_failed := nofun
  no_message := fun _ => h.no_message (.inr (.inl hs))
  message_of_cancelled := nofun
  started := fun _ => h.started (.inl hs)
  segments_of_completed := fun _ => hsome
  pending := nofun
  no_reason := by simp [Session.completedWith, record]

/-- Failing sets a message, a code and the time of the end together. -/
theorem failedWith (h : Consistent reason s) (hs : s.status.isTerminal = false)
    (message code : String) (now : Instant) :
    Consistent reason (s.failedWith message code now) where
  confidence_eq := h.confidence_eq
  fullText_eq := fullText_of_none (h.finalText_eq_none (ne_of_isTerminal hs rfl))
  finalText_iff := by
    have htext := h.finalText_eq_none (ne_of_isTerminal hs rfl)
    simp [Session.failedWith, record, htext]
  finished_iff := iff_of_true rfl (.inr (.inl rfl))
  errorCode_iff := iff_of_true rfl rfl
  message_of_failed := fun _ => rfl
  no_message := by simp [Session.failedWith, record]
  message_of_cancelled := nofun
  started := by simp [Session.failedWith, record]
  segments_of_completed := nofun
  pending := nofun
  no_reason := by simp [Session.failedWith, record]

/-- Cancelling again with no reason keeps the one that was given. -/
theorem cancelledFor (h : Consistent reason s) (hs : s.status.isTerminal = false)
    (given : Option String) (now : Instant) :
    Consistent (given.or reason) (s.cancelledFor given now) where
  confidence_eq := h.confidence_eq
  fullText_eq := fullText_of_none (h.finalText_eq_none (ne_of_isTerminal hs rfl))
  finalText_iff := by
    have htext := h.finalText_eq_none (ne_of_isTerminal hs rfl)
    simp [Session.cancelledFor, record, htext]
  finished_iff := iff_of_true rfl (.inr (.inr rfl))
  errorCode_iff := by
    have hcode := h.errorCode_eq_none (ne_of_isTerminal hs rfl)
    simp [Session.cancelledFor, record, hcode]
  message_of_failed := nofun
  no_message := by simp [Session.cancelledFor, record]
  message_of_cancelled := fun _ => congrArg given.or (h.message_eq hs)
  started := by simp [Session.cancelledFor, record]
  segments_of_completed := nofun
  pending := nofun
  no_reason := by simp [Session.cancelledFor, record]

/-- Taking the events changes none of the fields. -/
theorem drained (h : Consistent reason s) : Consistent reason { s with outbox := .empty } where
  confidence_eq := h.confidence_eq
  fullText_eq := h.fullText_eq
  finalText_iff := h.finalText_iff
  finished_iff := h.finished_iff
  errorCode_iff := h.errorCode_iff
  message_of_failed := h.message_of_failed
  no_message := h.no_message
  message_of_cancelled := h.message_of_cancelled
  started := h.started
  segments_of_completed := h.segments_of_completed
  pending := fun hpending => by
    obtain ⟨hsegments, hconfidence, hversion, -⟩ := h.pending hpending
    exact ⟨hsegments, hconfidence, hversion, rfl⟩
  no_reason := h.no_reason

/-- Once nothing can change any more, no reason is looked at. -/
theorem of_isTerminal (h : Consistent reason s) (hs : s.status.isTerminal = true)
    (other : Option String) : Consistent other s where
  confidence_eq := h.confidence_eq
  fullText_eq := h.fullText_eq
  finalText_iff := h.finalText_iff
  finished_iff := h.finished_iff
  errorCode_iff := h.errorCode_iff
  message_of_failed := h.message_of_failed
  no_message := h.no_message
  message_of_cancelled := fun heq => by
    rw [heq] at hs
    contradiction
  started := h.started
  segments_of_completed := h.segments_of_completed
  pending := h.pending
  no_reason := fun heq => by rcases heq with heq | heq <;> rw [heq] at hs <;> contradiction

/-- A refusal keeps a session consistent, whatever reason was given. -/
theorem refused (h : Consistent reason s) {refusal : Refusal}
    (hrefused : perform now command s = .error refusal s) :
    Consistent (command.reason?.or reason) s := by
  cases command with
  | cancel given => exact h.of_isTerminal (isTerminal_of_cancel_error hrefused) _
  | _ => exact h

/-- Every effect keeps a session consistent, with the reason it gives if it gives one. -/
theorem effect (h : Consistent reason s) (heffect : Effect now s command next) :
    Consistent (command.reason?.or reason) next := by
  cases heffect with
  | start pending => exact h.begun pending _ _ _
  | add processing accepted => exact h.withSegments processing _ _ _
  | addAll processing staged =>
    rw [foldl_record]
    exact h.withSegments processing _ _ _
  | mergeFew | failLate => exact h
  | merge processing many merged => exact h.withSegments processing _ _ _
  | complete processing nonempty composed => exact h.completedWith processing nonempty composed _
  | fail alive => exact h.failedWith alive _ _ _
  | cancel alive => exact h.cancelledFor alive _ _
  | drain => exact h.drained

/-- Through a run the fields of a session go on to agree, whatever reasons are given in it. -/
theorem exists_run (h : Consistent reason s) (steps : List (Instant × Command)) :
    ∃ last, Consistent last (s.run steps) :=
  run_invariant (P := fun s => ∃ last, Consistent last s) ⟨reason, h⟩
    (fun ⟨_, h⟩ heffect => ⟨_, h.effect heffect⟩) steps

end Consistent

/-- After every run of a new session its fields agree. -/
theorem consistent_run (id audioId : String) (language : Language) (parameters : Parameters)
    (steps : List (Instant × Command)) :
    Consistent (lastReason steps)
      (((new id audioId language).withParameters parameters).run steps) := by
  refine run_induction (P := fun steps => Consistent (lastReason steps)) ?_ ?_ ?_ steps
  · exact .new id audioId language parameters
  · intro steps now s command refusal h hrefused
    rw [lastReason_append]
    exact h.refused hrefused
  · intro steps now s command next h heffect
    rw [lastReason_append]
    exact h.effect heffect

end Consistent

end Session

end SpeechTranscript
