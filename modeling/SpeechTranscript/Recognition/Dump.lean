import SpeechTranscript.Json.Reader
import SpeechTranscript.Recognition.Utterance

/-!
# Dumps of recognizer output

A dump is a JSON text that lists utterances, either as an array or as the member `segments` of an
object. An utterance is an object with named fields, of which unknown ones are ignored and known
ones may not repeat, or an array of the fields in their order. Start, end and text must be there.
-/

namespace SpeechTranscript

inductive DumpFault where
  | malformed (fault : Json.Fault)
  /-- The text starts with a JSON value that lists no utterances. -/
  | shape
  deriving DecidableEq

def DumpFault.message (text : List Char) : DumpFault → String
  | .malformed fault => fault.message text
  | .shape => "data did not match any variant of untagged enum SegmentDump"

namespace Json

def toFloat? : Json → Option Float
  | .integer n => some (Float.ofInt n)
  | .float x => some x
  | _ => none

def toString? : Json → Option String
  | .string s => some s
  | _ => none

def toUInt32? : Json → Option UInt32
  | .integer n => if 0 ≤ n ∧ n < UInt32.size then some (.ofNat n.toNat) else none
  | _ => none

def orNull? {α : Type} (read? : Json → Option α) : Json → Option (Option α)
  | .null => some none
  | value => (read? value).map some

end Json

inductive Field where
  | missing
  | once (value : Json)
  | repeated

namespace Field

/-- The values of the members with a name. -/
def named (members : List (String × Json)) (name : String) : Field :=
  match members.filter (·.1 == name) with
  | [] => .missing
  | [(_, value)] => .once value
  | _ => .repeated

def placed (items : List Json) (place : Nat) : Field :=
  match items[place]? with
  | some value => .once value
  | none => .missing

def required? {α : Type} (read? : Json → Option α) : Field → Option α
  | .once value => read? value
  | _ => none

/-- A field that has a value of its own if it is missing. -/
def optional? {α : Type} (read? : Json → Option α) (standard : α) : Field → Option α
  | .missing => some standard
  | .once value => read? value
  | .repeated => none

end Field

namespace Utterance

def fieldNames : List String :=
  ["start", "end", "text", "confidence", "speaker_id", "language_detected", "sequence_number"]

/-- An utterance from its fields, given by their places. -/
def ofFields? (field : Nat → Field) : Option Utterance := do
  let start ← (field 0).required? Json.toFloat?
  let stop ← (field 1).required? Json.toFloat?
  let text ← (field 2).required? Json.toString?
  let confidence ← (field 3).optional? Json.toFloat? assumedConfidence
  let speaker ← (field 4).optional? (Json.orNull? Json.toString?) none
  let language ← (field 5).optional? (Json.orNull? Json.toString?) none
  let sequence ← (field 6).optional? (Json.orNull? Json.toUInt32?) none
  return { start, stop, text, confidence, speaker, language, sequence }

def ofJson? : Json → Option Utterance
  | .object members => ofFields? fun place => Field.named members (fieldNames.getD place "")
  | .array items =>
    -- a list may end early, but not go on after the last field
    if items.length ≤ fieldNames.length then ofFields? (Field.placed items) else none
  | _ => none

def listOfJson? : Json → Option (List Utterance)
  | .array items => items.mapM ofJson?
  | _ => none

end Utterance

namespace Dump

def ofJson? : Json → Option (List Utterance)
  | .object members => (Field.named members "segments").required? Utterance.listOfJson?
  | value => Utterance.listOfJson? value

/-- The utterances a text lists. The first value is read and must list utterances before what
follows it is looked at. -/
def read (text : List Char) : Except DumpFault (List Utterance) := do
  let (value, rest) ← (Json.readFirst text).mapError .malformed
  match ofJson? value with
  | none => .error .shape
  | some utterances =>
    (Json.readEnd rest).mapError .malformed
    return utterances

end Dump

end SpeechTranscript
