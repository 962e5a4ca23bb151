import SpeechTranscript.CommandLine.Arguments
import SpeechTranscript.CommandLine.FileTree
import SpeechTranscript.Export.Basic
import SpeechTranscript.Recognition.SegmentFile
import SpeechTranscript.Transcription.Basic

/-!
# The transcript program

One invocation from its arguments to its end: the request is checked, the recognizer output is read
and transcribed, and the transcript is written to a file or to standard output. A file is written
last and only if all went well. What the program needs of the system is a `Host`; a `FileTree` is
one, so the whole program is a function from arguments and a tree to an ending and a tree.
-/

namespace SpeechTranscript

/-- What the program needs of the system it runs on. -/
structure Host (m : Type → Type) where
  has : String → m Bool
  read : String → m (Except String ByteArray)
  /-- Writes a text to a file, or says why it cannot. -/
  write : String → String → m (Except String Unit)
  now : m Instant
  /-- A name for a session that no other has. -/
  freshId : m String

inductive ProgramFault where
  | inputMissing (path : String)
  | badMergeGap (millis : Float)
  | badDuration (seconds : Float)
  | value (cause : InvalidValue)
  | failed (failure : Failure)
  | notCompleted (status : Status)
  | lowQuality
  | cannotWrite (cause : String)
  deriving DecidableEq

def ProgramFault.message : ProgramFault → String
  | .inputMissing path => "Input file not found: " ++ path
  | .badMergeGap millis =>
    "Merge gap must be a non-negative number of milliseconds, got " ++ Decimal.text millis
  | .badDuration seconds => "Audio duration must be positive, got " ++ Decimal.text seconds
  | .value cause => cause.message
  | .failed failure => failure.message
  | .notCompleted status => "Transcription ended in status: " ++ status.text
  | .lowQuality => "Transcription failed the quality check"
  | .cannotWrite cause => cause

/-- What a run of the program leaves: its exit code and what it wrote to its two outputs. -/
structure Report where
  code : UInt8
  out : String
  err : String
  deriving DecidableEq

inductive Ending where
  | usage
  | help
  | done (report : Report)
  deriving DecidableEq

/-- What is to be done, once the request is checked. -/
structure Job where
  format : ExportFormat
  language : Language
  options : Options

/-- The format asked for: the one named, else that of the extension of the output if it is one, else
plain text. -/
def chooseFormat (name output : Option String) : Except Refusal ExportFormat :=
  match name with
  | some name => ExportFormat.ofName name
  | none => .ok (((output.bind FilePath.extension?).bind ExportFormat.read?).getD .txt)

def audioIdOf (path : String) : String := (FilePath.stem? path).getD "input"

namespace Invocation

/-- Whether the input is there and the numbers make sense. -/
def check (i : Invocation) (inputThere : Bool) : Except ProgramFault Unit :=
  if !inputThere then .error (.inputMissing i.input)
  else if !(i.mergeGap.isFinite && 0 ≤ i.mergeGap) then .error (.badMergeGap i.mergeGap)
  else match i.recording with
    | some seconds =>
      if seconds.isFinite && 0 < seconds then .ok () else .error (.badDuration seconds)
    | none => .ok ()

def recording? (i : Invocation) : Except InvalidValue (Option Duration) :=
  match i.recording with
  | some seconds => (Duration.ofSeconds seconds).map some
  | none => .ok none

def prepare (i : Invocation) : Except ProgramFault Job := do
  let format ← (chooseFormat i.format i.output).mapError fun r => .failed (.refused r)
  let language ← (Language.ofCode i.language).mapError .value
  let recording ← i.recording?.mapError .value
  return {
    format
    language
    options := {
      recording
      model := i.model
      mergeAdjacent := !i.noMerge
      mergeGap := i.mergeGap
      skipOverlapping := i.skipOverlapping
      parameters := .ofList i.parameters } }

/-- The transcript, if the transcription came to a good end. -/
def render (i : Invocation) (job : Job) (outcome : Outcome) : Except ProgramFault String := do
  let status ← outcome.result.mapError .failed
  let session := outcome.course.session
  if status ≠ .completed then .error (.notCompleted status)
  else if i.requireQuality && !session.passesQuality then .error .lowQuality
  else
    (session.exportAs job.format (some .standard)).mapError fun r => .failed (.refused r)

end Invocation

namespace Program

def progressLine (progress : Progress) : String :=
  -- written over the line before it
  "\rProcessing segments: " ++ progress.text

/-- The report of a run that failed after it had written something. -/
def failure (err : String) (fault : ProgramFault) : Report :=
  ⟨1, "", err ++ "Error: " ++ fault.message ++ "\n"⟩

variable {m : Type → Type} [Monad m]

/-- Hands out a transcript: to the output file if there is one, else to standard output. -/
def deliver (host : Host m) (output : Option String) (err transcript : String) : m Report := do
  match output with
  | none => return ⟨0, transcript ++ "\n", err⟩
  | some path =>
    match ← host.write path transcript with
    | .ok () => return ⟨0, "", err⟩
    | .error cause => return failure err (.cannotWrite cause)

def transcribe (host : Host m) (i : Invocation) (job : Job) : m Report := do
  let id ← host.freshId
  let started ← host.now
  -- a file that cannot be read is the failure of a session that has started
  let source := SegmentFile.utterances i.input (← host.read i.input)
  let finished ← host.now
  let session := job.options.newSession id (audioIdOf i.input) job.language
  let outcome := Transcription.execute job.options source (fun _ => true) started finished session
  let err := String.join (outcome.course.reports.toList.map progressLine) ++ "\n"
  match i.render job outcome with
  | .error fault => return failure err fault
  | .ok transcript => deliver host i.output err transcript

def perform (host : Host m) (i : Invocation) : m Report := do
  let there ← host.has i.input
  match (do i.check there; i.prepare) with
  | .error fault => return failure "" fault
  | .ok job => transcribe host i job

def run (host : Host m) (args : List String) : m Ending := do
  match Invocation.ofArguments args with
  | .error .usage => return .usage
  | .error .help => return .help
  | .ok i => return .done (← perform host i)

end Program

/-- A file tree as a host, at a given time of day and with a given name for the session. -/
def FileTree.host (now : Instant) (id : String) : Host (StateM FileTree) where
  has path := return (← get).has path
  read path := return ((← get).read path).mapError (·.text)
  write path text := do
    match (← get).write path text with
    | .ok tree => set tree; return .ok ()
    | .error fault => return .error fault.text
  now := pure now
  freshId := pure id

/-- What a run of the program shows: its report, with what it wrote to the devices of its outputs.
The transcript is the last that is written. -/
def FileTree.shown (t : FileTree) (report : Report) : Report :=
  { report with out := report.out ++ t.out, err := report.err ++ t.err }

/-- Runs the program on a system, and gives what it shows and the system afterwards. -/
def FileTree.run (t : FileTree) (now : Instant) (id : String) (args : List String) :
    Ending × FileTree :=
  let (ending, after) := (Program.run (host now id) args).run t
  match ending with
  | .done report => (.done (after.shown report), after)
  | other => (other, after)

end SpeechTranscript
