import SpeechTranscript.Confidence
import SpeechTranscript.Language
import SpeechTranscript.Progress
import SpeechTranscript.Text.Basic
import SpeechTranscript.Time.Duration

/-!
# Session events

What a session reports of its course, and the outbox where the reports wait until they are taken.
-/

namespace SpeechTranscript

inductive Happening where
  | started (recording : Option Duration) (language : Language)
  | segmentProcessed (segment : String) (progress : Progress)
  | completed (text : Text) (segments : Nat) (processing : Duration) (confidence : Confidence)
  | failed (message code : String)
  | cancelled (reason : Option String)
  deriving DecidableEq

/-- A report of what happened, with the session it happened to. -/
structure Event where
  session : String
  what : Happening
  deriving DecidableEq

/-- The reports nobody has taken yet, oldest first. -/
structure Outbox where
  pending : List Event
  deriving DecidableEq

namespace Outbox

def empty : Outbox := ⟨[]⟩

def push (o : Outbox) (event : Event) : Outbox := ⟨o.pending ++ [event]⟩

def drain (o : Outbox) : List Event × Outbox := (o.pending, empty)

def length (o : Outbox) : Nat := o.pending.length

def isEmpty (o : Outbox) : Bool := o.pending.isEmpty

@[simp] theorem pending_push (o : Outbox) (event : Event) :
    (o.push event).pending = o.pending ++ [event] := rfl

@[simp] theorem drain_fst (o : Outbox) : o.drain.1 = o.pending := rfl

@[simp] theorem pending_drain_snd (o : Outbox) : o.drain.2.pending = [] := rfl

end Outbox

end SpeechTranscript
