import SpeechTranscript.CommandLine.Program
import Std.Time.DateTime.Timestamp

/-!
# The command line

The transcript program on the system it is started on: files, clock and random names.
-/

namespace SpeechTranscript.System

/-- The system's words for a file that cannot be read or written, with their number. -/
def message (error : IO.Error) : String :=
  match error with
  | .alreadyExists _ code details
  | .otherError code details
  | .resourceBusy code details
  | .resourceVanished code details
  | .unsupportedOperation code details
  | .hardwareFault code details
  | .unsatisfiedConstraints code details
  | .illegalOperation code details
  | .protocolError code details
  | .timeExpired code details
  | .interrupted _ code details
  | .noFileOrDirectory _ code details
  | .invalidArgument _ code details
  | .permissionDenied _ code details
  | .resourceExhausted _ code details
  | .inappropriateType _ code details
  | .noSuchThing _ code details => details ++ " (os error " ++ toString code.toNat ++ ")"
  | other => toString other

/-- What an action gives, or the system's words for what went wrong. -/
def attempt {α : Type} (action : IO α) : IO (Except String α) := do
  match ← action.toBaseIO with
  | .ok value => return .ok value
  | .error error => return .error (message error)

def hexByte (b : UInt8) : String :=
  String.ofList [Nat.digitChar (b.toNat / 16), Nat.digitChar (b.toNat % 16)]

def randomId : IO String := do
  let bytes ← IO.getRandomBytes 16
  let marked := bytes.toList.mapIdx fun i b =>
    if i = 6 then b &&& 0x0F ||| 0x40 else if i = 8 then b &&& 0x3F ||| 0x80 else b
  let group (start count : Nat) : String :=
    String.join (((marked.drop start).take count).map hexByte)
  return "-".intercalate [group 0 4, group 4 2, group 6 2, group 8 2, group 10 6]

def clock : IO Instant := do
  let now ← Std.Time.Timestamp.now
  return ⟨now.toNanosecondsSinceUnixEpoch.val / 1000⟩

/-- Whether something is there at a path, even if it may not be read. -/
def isThere (path : String) : BaseIO Bool := do
  match ← (IO.FS.Handle.mk path .read).toBaseIO with
  | .ok _ => return true
  | .error (.permissionDenied ..) => return true
  | .error _ => return false

def host : Host IO where
  has path := isThere path
  read path := attempt (IO.FS.readBinFile path)
  write path text := attempt (IO.FS.writeFile path text)
  now := clock
  freshId := randomId

def usageText : String :=
  "Usage: transcript [OPTIONS] <INPUT> [OUTPUT]\n\n" ++
  "Options:\n" ++
  "      --format <FORMAT>                  txt, srt, vtt or json\n" ++
  "      --language <LANGUAGE>              language code or auto\n" ++
  "      --model-version <MODEL_VERSION>    recorded in the session\n" ++
  "      --merge-gap-ms <MERGE_GAP_MS>      largest gap between merged segments\n" ++
  "      --no-merge                         keep segments as recognized\n" ++
  "      --audio-duration <AUDIO_DURATION>  length of the recording in seconds\n" ++
  "      --skip-overlapping                 drop segments that overlap an earlier one\n" ++
  "      --require-quality                  fail if the quality check fails\n" ++
  "      --param <PARAM>                    key=value, may be repeated\n" ++
  "  -h, --help                             print help\n"

end SpeechTranscript.System

open SpeechTranscript

def main (args : List String) : IO UInt32 := do
  match ← Program.run System.host args with
  | .usage =>
    IO.eprint System.usageText
    return 2
  | .help =>
    IO.print System.usageText
    return 0
  | .done report =>
    IO.eprint report.err
    IO.print report.out
    return report.code.toUInt32
