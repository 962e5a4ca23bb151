import SpeechTranscript.Decimal.Written
import SpeechTranscript.Json.Value

/-!
# Writing JSON

A value on one line without blanks, or spread over lines with a given indent. Numbers that are not
finite have no form in JSON and are written as `null`.
-/

namespace SpeechTranscript.Json

/-- In JSON a double is written in place from `1e-5` up to but not including `1e16`, with a point;
otherwise with an exponent. A tie between two shortest decimals goes to the even digit. -/
def floatStyle : Decimal.Style := ⟨fun e => -5 ≤ e && e < 16, ['.', '0'], .toEven⟩

def hexDigit (n : Nat) : Char := Nat.digitChar n

/-- A character inside a string: quotes, backslashes and control characters are escaped. -/
def escape (c : Char) : List Char :=
  if c == '"' then ['\\', '"']
  else if c == '\\' then ['\\', '\\']
  else if c.toNat < 0x20 then
    match c.toNat with
    | 0x08 => ['\\', 'b']
    | 0x09 => ['\\', 't']
    | 0x0A => ['\\', 'n']
    | 0x0C => ['\\', 'f']
    | 0x0D => ['\\', 'r']
    | n => ['\\', 'u', '0', '0', hexDigit (n / 16), hexDigit (n % 16)]
  else [c]

def quoted (s : String) : List Char :=
  '"' :: (s.toList.flatMap escape ++ ['"'])

def scalar : Json → List Char
  | .null => "null".toList
  | .bool true => "true".toList
  | .bool false => "false".toList
  | .integer value => (toString value).toList
  | .float value => if value.isFinite then (floatStyle.write value).toList else "null".toList
  | .string value => quoted value
  | .array _ | .object _ => []

mutual

def oneLine : Json → List Char
  | .array items => '[' :: (oneLineItems items ++ [']'])
  | .object members => '\x7b' :: (oneLineMembers members ++ ['\x7d'])
  | other => scalar other

def oneLineItems : List Json → List Char
  | [] => []
  | [item] => item.oneLine
  | item :: rest => item.oneLine ++ ',' :: oneLineItems rest

def oneLineMembers : List (String × Json) → List Char
  | [] => []
  | [(name, value)] => quoted name ++ ':' :: value.oneLine
  | (name, value) :: rest => quoted name ++ ':' :: (value.oneLine ++ ',' :: oneLineMembers rest)

end

def newLine (indent depth : Nat) : List Char :=
  '\n' :: List.replicate (indent * depth) ' '

mutual

/-- A value over several lines, each item and member on lines of its own. -/
def spread (indent depth : Nat) : Json → List Char
  | .array [] => ['[', ']']
  | .array (item :: rest) =>
    '[' :: (newLine indent (depth + 1) ++ item.spread indent (depth + 1) ++
      spreadItems indent (depth + 1) rest ++ newLine indent depth ++ [']'])
  | .object [] => ['\x7b', '\x7d']
  | .object ((name, value) :: rest) =>
    '\x7b' :: (newLine indent (depth + 1) ++ quoted name ++ ':' :: ' ' ::
      value.spread indent (depth + 1) ++ spreadMembers indent (depth + 1) rest ++
        newLine indent depth ++ ['\x7d'])
  | other => scalar other

def spreadItems (indent depth : Nat) : List Json → List Char
  | [] => []
  | item :: rest =>
    ',' :: (newLine indent depth ++ item.spread indent depth ++ spreadItems indent depth rest)

def spreadMembers (indent depth : Nat) : List (String × Json) → List Char
  | [] => []
  | (name, value) :: rest =>
    ',' :: (newLine indent depth ++ quoted name ++ ':' :: ' ' :: value.spread indent depth ++
      spreadMembers indent depth rest)

end

def compact (value : Json) : String := String.ofList value.oneLine

def pretty (indent : Nat) (value : Json) : String := String.ofList (value.spread indent 0)

end SpeechTranscript.Json
