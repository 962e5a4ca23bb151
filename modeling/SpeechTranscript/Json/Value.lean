import SpeechTranscript.Entries

/-!
# JSON values

A JSON value as it stands in a text: members keep their order and may repeat. Whole numbers that fit
into 64 bits are kept as integers, all others as doubles. The canonical form of a value has the
members of every object in the order of their names, the last one of a name kept.
-/

namespace SpeechTranscript

inductive Json where
  | null
  | bool (value : Bool)
  | integer (value : Int)
  | float (value : Float)
  | string (value : String)
  | array (items : List Json)
  | object (members : List (String × Json))

namespace Json

instance : Inhabited Json := ⟨null⟩

mutual

/-- The same value with the members of every object in the order of their names; of members with
one name the last is kept. -/
def canonical : Json → Json
  | .array items => .array (canonicalItems items)
  | .object members => .object (Entries.ofList (canonicalMembers members))
  | scalar => scalar

def canonicalItems : List Json → List Json
  | [] => []
  | item :: rest => item.canonical :: canonicalItems rest

def canonicalMembers : List (String × Json) → List (String × Json)
  | [] => []
  | (name, value) :: rest => (name, value.canonical) :: canonicalMembers rest

end

end Json

end SpeechTranscript
