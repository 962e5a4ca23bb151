import SpeechTranscript.CommandLine.Device
import SpeechTranscript.CommandLine.FilePath

/-!
# File trees

The folders, files and devices of a system, each under the names that lead to it from the root
folder, and what it means to find, read and write one by its path. A path that does not start at
the root folder starts at the working folder.
-/

namespace SpeechTranscript

inductive FileFault where
  | notFound
  | noDevice
  | notFolder
  | isFolder
  | noSpace
  | nameTooLong
  /-- A path with a null character in it, which no system call takes. -/
  | nullInName
  deriving DecidableEq, Repr

/-- The words for a fault; those of the system bear its number. -/
def FileFault.text : FileFault → String
  | .notFound => "No such file or directory (os error 2)"
  | .noDevice => "No such device or address (os error 6)"
  | .notFolder => "Not a directory (os error 20)"
  | .isFolder => "Is a directory (os error 21)"
  | .noSpace => "No space left on device (os error 28)"
  | .nameTooLong => "File name too long (os error 36)"
  | .nullInName => "file name contained an unexpected NUL byte"

/-- The folders and files of a system, each under the names that lead to it from the root folder. -/
structure FileTree where
  folders : List (List String)
  files : List (List String × ByteArray)
  out : String
  err : String

inductive Place where
  | folder (names : List String)
  | file (names : List String) (content : ByteArray)
  | device (device : Device)
  /-- A name that a folder does not have. -/
  | free (names : List String)

namespace FileTree

/-- The names of the working folder. Its own name has a slash in it, so no path spells it. -/
def workingFolder : List String := ["tmp", "/"]

def systemFolders : List (List String) :=
  [["bin"], ["boot"], ["dev"], ["dev", "fd"], ["dev", "pts"], ["dev", "shm"], ["etc"], ["home"],
    ["lib"], ["lib64"], ["media"], ["mnt"], ["opt"], ["proc"], ["proc", "self"],
    ["proc", "self", "fd"], ["root"], ["run"], ["sbin"], ["srv"], ["sys"], ["tmp"], ["usr"],
    ["usr", "bin"], ["usr", "lib"], ["usr", "local"], ["usr", "sbin"], ["usr", "share"], ["var"],
    ["var", "lib"], ["var", "log"], ["var", "tmp"]]

/-- How the files that every system has begin: its list of users, and its shell, which is a program
and no text. -/
def systemFiles : List (List String × ByteArray) :=
  [(["etc", "passwd"], "root:x:0:0:root:/root:/bin/bash\n".toUTF8),
    (["bin", "sh"], ⟨#[0x7F, 0x45, 0x4C, 0x46, 0x02, 0x01, 0x01, 0xFF]⟩)]

def empty : FileTree where
  folders := workingFolder :: systemFolders
  files := systemFiles
  out := ""
  err := ""

def longestName : Nat := 255

def longestPath : Nat := 4095

def placeOf (t : FileTree) (names : List String) : Place :=
  -- a device hides whatever else stands under its name
  match Device.ofNames? names with
  | some device => .device device
  | none =>
    match t.files.lookup names with
    | some content => .file names content
    | none => if t.folders.contains names then .folder names else .free names

/-- Where the next part of a path leads. Above the root folder is the root folder. -/
def step (t : FileTree) (place : Place) (part : List Char) : Except FileFault Place :=
  match place with
  | .file .. | .device _ => .error .notFolder
  | .free _ => .error .notFound
  | .folder names =>
    if part == [] || part == ['.'] then .ok place
    else if part == ['.', '.'] then .ok (.folder names.dropLast)
    else
      let name := String.ofList part
      if longestName < name.utf8ByteSize then .error .nameTooLong
      else .ok (t.placeOf (names ++ [name]))

def startOf (path : String) : List String :=
  if path.startsWith "/" then [] else workingFolder

/-- Whether a path can be looked up at all. -/
def checkPath (path : String) : Except FileFault Unit :=
  if path.any (· == '\x00') then .error .nullInName
  else if path.isEmpty then .error .notFound
  else if longestPath < path.utf8ByteSize then .error .nameTooLong
  else .ok ()

def follow (t : FileTree) (path : String) (parts : List (List Char)) : Except FileFault Place := do
  checkPath path
  parts.foldlM t.step (.folder (startOf path))

def find (t : FileTree) (path : String) : Except FileFault Place :=
  t.follow path (FilePath.parts path)

def has (t : FileTree) (path : String) : Bool :=
  match t.find path with
  | .ok (.free _) | .error _ => false
  | .ok _ => true

def read (t : FileTree) (path : String) : Except FileFault ByteArray := do
  match ← t.find path with
  | .file _ content => return content
  | .device .terminal => .error .noDevice
  | .device _ => return .empty
  | .free _ => .error .notFound
  | .folder _ => .error .isFolder

def setFile (names : List String) (content : ByteArray) :
    List (List String × ByteArray) → List (List String × ByteArray)
  | [] => [(names, content)]
  | file :: rest =>
    if file.1 = names then (names, content) :: rest else file :: setFile names content rest

/-- The names reached part by part from a folder. -/
def stops (names : List String) : List (List Char) → List (List String)
  | [] => []
  | part :: rest =>
    let next :=
      if part == [] || part == ['.'] then names
      else if part == ['.', '.'] then names.dropLast
      else names ++ [String.ofList part]
    next :: stops next rest

/-- The tree with the file at a path set to a content; the folders on the way are made as needed. -/
def put (t : FileTree) (path : String) (content : ByteArray) : FileTree :=
  let way := stops (startOf path) (FilePath.parts path)
  { t with
    folders := t.folders ++ way.dropLast
    files := setFile (way.getLast?.getD []) content t.files }

def writeDevice (t : FileTree) (text : String) : Device → Except FileFault FileTree
  | .sink => .ok t
  | .full => if text.isEmpty then .ok t else .error .noSpace
  | .terminal => .error .noDevice
  | .standardOutput => .ok { t with out := t.out ++ text }
  | .standardError => .ok { t with err := t.err ++ text }

/-- The parts looked up to write to a path: all of them, but of a path that ends in a slash the last
name is left out. -/
def partsToWrite (path : String) : List (List Char) :=
  let parts := FilePath.parts path
  ((parts.reverse.dropWhile (·.isEmpty)).drop 1).reverse ++ parts.getLast?.toList

/-- The tree after a text was written to a file, which is made if it is not there. A path that ends
in a slash names no file. -/
def write (t : FileTree) (path : String) (text : String) : Except FileFault FileTree := do
  match ← t.follow path (partsToWrite path) with
  | .file names _ | .free names => return { t with files := setFile names text.toUTF8 t.files }
  | .device device => t.writeDevice text device
  | .folder _ => .error .isFolder

end FileTree

end SpeechTranscript
