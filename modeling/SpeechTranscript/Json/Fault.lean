/-!
# Faults in JSON texts

Why a text is no JSON, and where. A place in a text is given as what is left from there on; its line
and its column, in bytes from the start of the line, are counted only when a fault is shown.
-/

namespace SpeechTranscript.Json

inductive FaultKind where
  | unfinishedList
  | unfinishedObject
  | unfinishedString
  | unfinishedValue
  | missingColon
  | missingListComma
  | missingObjectComma
  | unknownWord
  | missingValue
  | badEscape
  | badNumber
  | numberOutOfRange
  | controlCharacter
  | keyNotString
  | loneSurrogate
  | unfinishedPair
  | trailingComma
  | trailingCharacters
  | tooDeep
  deriving DecidableEq, Repr

namespace FaultKind

def isUnfinished : FaultKind → Bool
  | .unfinishedList | .unfinishedObject | .unfinishedString | .unfinishedValue => true
  | _ => false

def text : FaultKind → String
  | .unfinishedList => "EOF while parsing a list"
  | .unfinishedObject => "EOF while parsing an object"
  | .unfinishedString => "EOF while parsing a string"
  | .unfinishedValue => "EOF while parsing a value"
  | .missingColon => "expected `:`"
  | .missingListComma => "expected `,` or `]`"
  | .missingObjectComma => "expected `,` or `\x7d`"
  | .unknownWord => "expected ident"
  | .missingValue => "expected value"
  | .badEscape => "invalid escape"
  | .badNumber => "invalid number"
  | .numberOutOfRange => "number out of range"
  | .controlCharacter =>
    "control character (\\u0000-\\u001F) found while parsing a string"
  | .keyNotString => "key must be a string"
  | .loneSurrogate => "lone leading surrogate in hex escape"
  | .unfinishedPair => "unexpected end of hex escape"
  | .trailingComma => "trailing comma"
  | .trailingCharacters => "trailing characters"
  | .tooDeep => "recursion limit exceeded"

end FaultKind

/-- A fault and its place: `past` bytes into the text that is left. -/
structure Fault where
  kind : FaultKind
  rest : List Char
  past : Nat
  deriving DecidableEq, Repr

def byteCount (cs : List Char) : Nat :=
  cs.foldl (fun n c => n + c.utf8Size) 0

/-- Goes through the first `offset` bytes of a text and gives the number of line breaks among them
and the place after the last one. -/
def lastBreak (offset : Nat) : (place breaks start : Nat) → List Char → Nat × Nat
  | _, breaks, start, [] => (breaks, start)
  | place, breaks, start, c :: cs =>
    if offset ≤ place then (breaks, start)
    else
      let next := place + c.utf8Size
      if c == '\n' then lastBreak offset next (breaks + 1) next cs
      else lastBreak offset next breaks start cs

namespace Fault

/-- The place of a fault in the whole text, in bytes; not past its end. -/
def offset (fault : Fault) (text : List Char) : Nat :=
  let total := byteCount text
  min total (total - byteCount fault.rest + fault.past)

/-- The sentence shown for a fault in a text: what is wrong, the line and the column. -/
def message (fault : Fault) (text : List Char) : String :=
  let offset := fault.offset text
  let (breaks, start) := lastBreak offset 0 0 0 text
  fault.kind.text ++ " at line " ++ toString (breaks + 1) ++ " column " ++
    toString (offset - start)

end Fault

end SpeechTranscript.Json
