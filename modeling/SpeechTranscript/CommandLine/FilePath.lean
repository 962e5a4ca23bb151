import SpeechTranscript.Text.Pieces

/-!
# File paths

A path is a text of names separated by slashes. The file name is the last name; the extension is
what follows its last dot, and the stem what stands before it. A dot in front of a name starts no
extension.
-/

namespace SpeechTranscript.FilePath

/-- The parts of a path between slashes, empty ones included. -/
def parts (path : String) : List (List Char) :=
  Text.splitWhere (· == '/') path.toList

/-- The file name a path ends in; nothing if it leads to a folder by `.` or `..` alone. Slashes at
the end and parts that say `.` do not count. -/
def fileName? (path : String) : Option (List Char) :=
  match ((parts path).filter fun part => part != [] && part != ['.']).getLast? with
  | some name => if name == ['.', '.'] then none else some name
  | none => none

/-- A file name cut at its last dot, if that has something before it. -/
def cutAtDot (name : List Char) : List Char × Option (List Char) :=
  let ending := name.reverse.takeWhile (· != '.')
  let stem := name.take (name.length - ending.length - 1)
  if ending.length < name.length && stem != [] then (stem, some ending.reverse) else (name, none)

def stem? (path : String) : Option String :=
  (fileName? path).map fun name => String.ofList (cutAtDot name).1

def extension? (path : String) : Option String := do
  let name ← fileName? path
  let ending ← (cutAtDot name).2
  return String.ofList ending

end SpeechTranscript.FilePath
