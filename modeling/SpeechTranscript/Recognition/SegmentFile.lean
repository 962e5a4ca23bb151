import SpeechTranscript.Recognition.Dump

/-!
# Segment files

A dump of recognizer output in a file: the utterances in it, or the sentence that says why there are
none.
-/

namespace SpeechTranscript.SegmentFile

def notText : String := "stream did not contain valid UTF-8"

def textOf (content : Except String ByteArray) : Except String String := do
  let bytes ← content
  match String.fromUTF8? bytes with
  | some text => return text
  | none => .error notText

def utterances (path : String) (content : Except String ByteArray) :
    Except String (List Utterance) :=
  match textOf content with
  | .error cause => .error ("Failed to read segment file " ++ path ++ ": " ++ cause)
  | .ok text =>
    let cs := text.toList
    (Dump.read cs).mapError fun fault =>
      "Invalid segment file " ++ path ++ ": " ++ fault.message cs

end SpeechTranscript.SegmentFile
