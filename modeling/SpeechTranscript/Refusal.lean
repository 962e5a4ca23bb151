import SpeechTranscript.Session.Status
import SpeechTranscript.Time.Duration

/-!
# Refused operations

Why an operation on segments or on a session was refused, the sentence shown for it, and the stable
code recorded with a failed session.
-/

namespace SpeechTranscript

inductive Refusal where
  | wrongStatus (operation : Operation) (status : Status)
  | overlap (segment existing : String) (millis : Float)
  | noSegments
  | notMergeable (first second : String)
  | splitOutside (point start stop : Duration)
  | noEncoder
  | unknownFormat (name : String)
  | startNotBeforeEnd (start stop : Duration)
  | segmentTooShort (seconds : Float)
  | value (cause : InvalidValue)
  deriving DecidableEq

namespace Refusal

def message : Refusal → String
  | .wrongStatus operation status =>
    "cannot " ++ operation.text ++ " transcription in status: " ++ status.text
  | .overlap segment existing millis =>
    "segment " ++ segment ++ " overlaps " ++ existing ++ " by " ++ Decimal.fixed 0 millis ++ "ms"
  | .noSegments => "cannot complete transcription without segments"
  | .notMergeable first second =>
    "segments " ++ first ++ " and " ++ second ++ " are neither overlapping nor adjacent"
  | .splitOutside point start stop =>
    "split time " ++ point.text ++ " must be within segment bounds (" ++ start.text ++ " - " ++
      stop.text ++ ")"
  | .noEncoder => "serialization port is required for this export"
  | .unknownFormat name => "unsupported export format: " ++ name
  | .startNotBeforeEnd start stop =>
    "invalid segment: start time (" ++ start.text ++ ") must be before end time (" ++ stop.text ++
      ")"
  | .segmentTooShort seconds =>
    "invalid segment: segment too short: " ++ Decimal.text seconds ++ "s"
  | .value cause => cause.message

def code : Refusal → String
  | .wrongStatus .. => "INVALID_STATE"
  | .overlap .. => "SEGMENT_OVERLAP"
  | .noSegments => "EMPTY_RESULT"
  | .notMergeable .. => "NOT_MERGEABLE"
  | .splitOutside .. => "INVALID_SPLIT_POINT"
  | .noEncoder => "MISSING_DEPENDENCY"
  | .unknownFormat _ => "UNSUPPORTED_FORMAT"
  | .startNotBeforeEnd .. | .segmentTooShort _ => "INVALID_SEGMENT"
  | .value _ => "INVALID_VALUE"

end Refusal

/-- A value inside an operation: if it cannot be built, the operation is refused. -/
def orRefuse {α : Type} (value : Except InvalidValue α) : Except Refusal α :=
  value.mapError .value

section OrRefuse

variable {α : Type} {value : Except InvalidValue α}

theorem orRefuse_eq_ok_iff {a : α} : orRefuse value = .ok a ↔ value = .ok a := by
  constructor
  · intro h
    cases value with
    | ok b => cases h; rfl
    | error cause => cases h
  · intro h
    rw [h]
    rfl

theorem orRefuse_eq_error_iff {refusal : Refusal} :
    orRefuse value = .error refusal ↔ ∃ cause, value = .error cause ∧ refusal = .value cause := by
  constructor
  · intro h
    cases value with
    | ok b => cases h
    | error cause => cases h; exact ⟨cause, rfl, rfl⟩
  · rintro ⟨cause, h, rfl⟩
    rw [h]
    rfl

end OrRefuse

/-- Steps in a row give a result exactly when each of them does. -/
theorem bind_eq_ok_iff {ε α β : Type} {x : Except ε α} {f : α → Except ε β} {b : β} :
    x >>= f = .ok b ↔ ∃ a, x = .ok a ∧ f a = .ok b := by
  constructor
  · intro h
    cases x with
    | ok a => exact ⟨a, rfl, h⟩
    | error e => cases h
  · rintro ⟨a, rfl, h⟩
    exact h

/-- Steps in a row fail exactly when one of them does. -/
theorem bind_eq_error_iff {ε α β : Type} {x : Except ε α} {f : α → Except ε β} {e : ε} :
    x >>= f = .error e ↔ x = .error e ∨ ∃ a, x = .ok a ∧ f a = .error e := by
  constructor
  · intro h
    cases x with
    | ok a => exact .inr ⟨a, rfl, h⟩
    | error e' => cases h; exact .inl rfl
  · rintro (rfl | ⟨a, rfl, h⟩)
    · rfl
    · exact h

end SpeechTranscript
