import SpeechTranscript.Decimal.Reader
import SpeechTranscript.Text.Pieces
import SpeechTranscript.Transcription.Options

/-!
# Command line arguments

The arguments of one invocation. Names of options start with two dashes; a value follows as the next
argument, which then starts with no dash unless it is a dash alone, or after an equals sign. Every
option but `--param` is given at most once. What follows `--` is taken as paths. The arguments are
read from left to right up to the first mistake or the first request for help.
-/

namespace SpeechTranscript

/-- Why there is nothing to run. -/
inductive Halt where
  | usage
  | help
  deriving DecidableEq, Repr

inductive ValueOption where
  | format
  | language
  | modelVersion
  | mergeGap
  | audioDuration
  | param
  deriving DecidableEq, Repr

inductive Flag where
  | noMerge
  | skipOverlapping
  | requireQuality
  | help
  deriving DecidableEq, Repr

structure Invocation where
  input : String
  output : Option String
  format : Option String
  language : String
  model : String
  /-- In milliseconds. -/
  mergeGap : Float
  noMerge : Bool
  /-- In seconds. -/
  recording : Option Float
  skipOverlapping : Bool
  requireQuality : Bool
  parameters : List (String × String)
  deriving DecidableEq

/-- What the arguments read so far have given. -/
structure Given where
  paths : List String
  format : Option String
  language : Option String
  model : Option String
  mergeGap : Option Float
  recording : Option Float
  parameters : List (String × String)
  flags : List Flag
  deriving DecidableEq

/-- What one argument is. -/
inductive Argument where
  | value (option : ValueOption) (attached : Option String)
  | flag (flag : Flag)
  | endOfOptions
  | path
  | unknown
  deriving DecidableEq, Repr

/-- A parameter as it is given: a name that is not blank, an equals sign, and a value. Blanks around
both are dropped. -/
def readParameter? (s : String) : Option (String × String) :=
  let cs := s.toList
  let name := cs.takeWhile (· != '=')
  match cs.drop name.length with
  | _ :: value =>
    if Text.allBlank name then none
    else some (String.ofList (Text.trim name), String.ofList (Text.trim value))
  | [] => none

def parameterFault (s : String) : String := "expected key=value, got '" ++ s ++ "'"

namespace Argument

def option? : List Char → Option (ValueOption ⊕ Flag)
  | name =>
    match String.ofList name with
    | "format" => some (.inl .format)
    | "language" => some (.inl .language)
    | "model-version" => some (.inl .modelVersion)
    | "merge-gap-ms" => some (.inl .mergeGap)
    | "audio-duration" => some (.inl .audioDuration)
    | "param" => some (.inl .param)
    | "no-merge" => some (.inr .noMerge)
    | "skip-overlapping" => some (.inr .skipOverlapping)
    | "require-quality" => some (.inr .requireQuality)
    | "help" => some (.inr .help)
    | _ => none

/-- An option without its dashes, with its value if that is attached. -/
def ofLong (cs : List Char) : Argument :=
  let name := cs.takeWhile (· != '=')
  match option? name, cs.drop name.length with
  | some (.inl option), [] => .value option none
  | some (.inl option), _ :: attached => .value option (some (String.ofList attached))
  | some (.inr f), [] => .flag f
  | _, _ => .unknown

/-- What an argument is before the end of options. -/
def classify (arg : String) : Argument :=
  match arg.toList with
  | ['-', '-'] => .endOfOptions
  | '-' :: '-' :: rest => ofLong rest
  | '-' :: 'h' :: _ => .flag .help
  | '-' :: _ :: _ => .unknown
  | _ => .path

def isValue (arg : String) : Bool :=
  match arg.toList with
  | '-' :: _ :: _ => false
  | _ => true

end Argument

namespace Given

def nothing : Given where
  paths := []
  format := none
  language := none
  model := none
  mergeGap := none
  recording := none
  parameters := []
  flags := []

/-- A value given for the first time. -/
def once {α : Type} (former : Option α) (value : Option α) : Except Halt (Option α) :=
  match former, value with
  | none, some value => .ok (some value)
  | _, _ => .error .usage

def addPath (g : Given) (path : String) : Except Halt Given :=
  if path.isEmpty || 2 ≤ g.paths.length then .error .usage
  else .ok { g with paths := g.paths ++ [path] }

def addFlag (g : Given) (flag : Flag) : Except Halt Given :=
  if flag = .help then .error .help
  else if g.flags.contains flag then .error .usage
  else .ok { g with flags := flag :: g.flags }

def addValue (g : Given) (option : ValueOption) (value : String) : Except Halt Given := do
  match option with
  | .format => return { g with format := ← once g.format (some value) }
  | .language => return { g with language := ← once g.language (some value) }
  | .modelVersion => return { g with model := ← once g.model (some value) }
  | .mergeGap => return { g with mergeGap := ← once g.mergeGap (Decimal.read? value) }
  | .audioDuration => return { g with recording := ← once g.recording (Decimal.read? value) }
  | .param =>
    match readParameter? value with
    | some parameter => return { g with parameters := g.parameters ++ [parameter] }
    | none => .error .usage

def addAll (g : Given) : List String → Except Halt Given
  | [] => .ok g
  | arg :: rest =>
    match Argument.classify arg with
    -- from here on `--` is a path like any other
    | .endOfOptions => rest.foldlM addPath g
    | .path => do (← g.addPath arg).addAll rest
    | .flag flag => do (← g.addFlag flag).addAll rest
    | .value option (some attached) => do (← g.addValue option attached).addAll rest
    | .value option none =>
      match rest with
      | value :: rest =>
        if Argument.isValue value then do (← g.addValue option value).addAll rest
        else .error .usage
      | [] => .error .usage
    | .unknown => .error .usage

def invocation (g : Given) : Except Halt Invocation :=
  match g.paths with
  | [] => .error .usage
  | input :: outputs =>
    .ok {
      input
      output := outputs.head?
      format := g.format
      language := g.language.getD Language.autoCode
      model := g.model.getD Options.standard.model
      mergeGap := g.mergeGap.getD Options.standardMergeGap
      noMerge := g.flags.contains .noMerge
      recording := g.recording
      skipOverlapping := g.flags.contains .skipOverlapping
      requireQuality := g.flags.contains .requireQuality
      parameters := g.parameters }

end Given

def Invocation.ofArguments (args : List String) : Except Halt Invocation := do
  (← Given.nothing.addAll args).invocation

end SpeechTranscript
