import SpeechTranscript.Entries

/-!
# Processing parameters

Named settings recorded with a session, one value to a name.
-/

namespace SpeechTranscript

/-- Names with their values, the names ascending. -/
structure Parameters where
  entries : List (String × String)
  deriving DecidableEq, Repr

namespace Parameters

def empty : Parameters := ⟨[]⟩

instance : Inhabited Parameters := ⟨empty⟩

def insert (p : Parameters) (name value : String) : Parameters :=
  ⟨Entries.insert name value p.entries⟩

/-- The parameters set by a list of settings; a later setting of a name wins. -/
def ofList (settings : List (String × String)) : Parameters :=
  ⟨Entries.ofList settings⟩

end Parameters

end SpeechTranscript
