/-!
# Entries in the order of their names

Lists of names with values, ascending and without repetition. Names are ordered by their characters'
code points.
-/

namespace SpeechTranscript.Entries

variable {α : Type}

/-- The entries with a value set; a former value of the same name is replaced. -/
def insert (name : String) (value : α) : List (String × α) → List (String × α)
  | [] => [(name, value)]
  | entry :: rest =>
    if name < entry.1 then (name, value) :: entry :: rest
    else if name = entry.1 then (name, value) :: rest
    else entry :: insert name value rest

/-- The entries set by a list of settings; a later setting of a name wins. -/
def ofList (settings : List (String × α)) : List (String × α) :=
  settings.foldl (fun entries setting => insert setting.1 setting.2 entries) []

end SpeechTranscript.Entries
