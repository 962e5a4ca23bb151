import SpeechTranscript.InvalidValue
import SpeechTranscript.Text.Pieces

/-!
# Languages

The language of a recording: a tag such as `en` or `pt-BR`, or `auto` when the recognizer is to
find out. A tag is a primary part of two or three ASCII letters and at most one region of two to
four ASCII letters or digits, separated by `-` or `_`. It is kept in one spelling: the primary part
in lower case, a region of two characters in upper case.
-/

namespace SpeechTranscript

inductive Language where
  | auto
  | tag (primary : String) (region : Option String)
  deriving DecidableEq, Repr

namespace Language

instance : Inhabited Language := ⟨auto⟩

def autoCode : String := "auto"

def isAutoCode (cs : List Char) : Bool :=
  cs.map Char.toLower == autoCode.toList

def readPrimary? (cs : List Char) : Option String :=
  if (cs.length == 2 || cs.length == 3) && cs.all Char.isAlpha then
    some (String.ofList (cs.map Char.toLower))
  else none

def readRegion? (cs : List Char) : Option String :=
  if 2 ≤ cs.length && cs.length ≤ 4 && cs.all Char.isAlphanum then
    some (String.ofList (if cs.length == 2 then cs.map Char.toUpper else cs))
  else none

def isSeparator (c : Char) : Bool := c == '-' || c == '_'

/-- The language a code names, blanks around it aside. -/
def read? (code : String) : Option Language :=
  let cs := Text.trim code.toList
  if isAutoCode cs then some .auto
  else match Text.splitWhere isSeparator cs with
    | [primary] => (readPrimary? primary).map (.tag · none)
    | [primary, region] => do
      let primary ← readPrimary? primary
      let region ← readRegion? region
      some (.tag primary (some region))
    | _ => none

def ofCode (code : String) : Except InvalidValue Language :=
  match read? code with
  | some language => .ok language
  | none => .error (.language code)

def code : Language → String
  | .auto => autoCode
  | .tag primary none => primary
  | .tag primary (some region) => primary ++ "-" ++ region

def primary : Language → String
  | .auto => autoCode
  | .tag primary _ => primary

def isAuto : Language → Bool
  | .auto => true
  | .tag .. => false

end Language

end SpeechTranscript
