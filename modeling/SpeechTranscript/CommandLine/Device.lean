/-!
# Device files

Files that stand for a device and hold nothing themselves. They differ in what becomes of a text
that is written to them. Nothing is read from them: some have nothing to give, the others no end.
-/

namespace SpeechTranscript

/-- A device, told by what becomes of a text that is written to it. -/
inductive Device where
  | sink
  | full
  /-- The terminal of the program, which has none. -/
  | terminal
  | standardOutput
  | standardError
  deriving DecidableEq, Repr

namespace Device

/-- The stream of the program with a number: its input, where nothing comes in, and its outputs. -/
def ofStream? : String → Option Device
  | "0" => some .sink
  | "1" => some .standardOutput
  | "2" => some .standardError
  | _ => none

/-- The device below the folder of devices with a name. -/
def ofName? : String → Option Device
  | "null" | "zero" | "random" | "urandom" => some .sink
  | "full" => some .full
  | "tty" => some .terminal
  | "stdin" => ofStream? "0"
  | "stdout" => ofStream? "1"
  | "stderr" => ofStream? "2"
  | _ => none

/-- The device with these names from the root folder on. -/
def ofNames? : List String → Option Device
  | ["dev", name] => ofName? name
  | ["dev", "fd", number] | ["proc", "self", "fd", number] => ofStream? number
  | _ => none

end Device

end SpeechTranscript
