import SpeechTranscript.InvalidValue
import SpeechTranscript.Text.Pieces
import SpeechTranscript.Text.Uppercase

/-!
# Transcribed text

What was said, either final or still interim. A text holds at most a million characters when it is
built. Words are what stands between blanks; sentences end with `.`, `!` or `?`, and the rules for
final text break paragraphs where the speaker said so and start each sentence with a capital.
-/

namespace SpeechTranscript

def longestText : Nat := 1000000

/-- A transcribed text and whether it is final. -/
structure Text where
  content : String
  isFinal : Bool
  deriving DecidableEq, Repr

namespace Text

def ofContent (content : String) (isFinal : Bool) : Except InvalidValue Text :=
  if content.length ≤ longestText then .ok ⟨content, isFinal⟩
  else .error (.textTooLong content.length)

def finalized (content : String) : Except InvalidValue Text := ofContent content true

def interim (content : String) : Except InvalidValue Text := ofContent content false

def empty : Text := ⟨"", false⟩

instance : Inhabited Text := ⟨empty⟩

def asFinal (t : Text) : Text := { t with isFinal := true }

def asInterim (t : Text) : Text := { t with isFinal := false }

def chars (t : Text) : List Char := t.content.toList

/-- A text of blanks only counts as empty. -/
def isEmpty (t : Text) : Bool := allBlank t.chars

def wordCount (t : Text) : Nat := (words t.chars).length

def charCount (t : Text) : Nat := t.content.length

/-! ## Sentences -/

def isTerminator (c : Char) : Bool := c == '.' || c == '!' || c == '?'

/-- How many pieces between terminators hold more than blanks. -/
def sentenceCount (t : Text) : Nat :=
  (splitWhere isTerminator t.chars).countP (!allBlank ·)

/-- The sentences: the text cut wherever a blank follows a terminator, trimmed, less the empty
ones. -/
def sentences (t : Text) : List String :=
  (t.chars.splitBy fun a b => !(isTerminator a && isBlank b)).map trim
    |>.filter (!·.isEmpty)
    |>.map String.ofList

/-! ## Rules for final text -/

/-- The dictated phrase that stands for a paragraph break. -/
def paragraphCommand : List Char := "New paragraph.".toList

/-- Copies a text of single-spaced words, with the first character upper-case and every character
after a terminator and a space. `capital` tells whether the next character is one of these, `ended`
whether the last one was a terminator, and `done` is the copy so far, reversed. -/
def capitalizeFrom (capital ended : Bool) (done : List Char) : List Char → List Char
  | [] => done.reverse
  | c :: cs =>
    capitalizeFrom (c == ' ' && ended) (isTerminator c)
      (if capital then (upper c).reverse ++ done else c :: done) cs

/-- One paragraph: its words with single spaces between them, each sentence with a capital. -/
def formatParagraph (cs : List Char) : List Char :=
  capitalizeFrom true false [] ([' '].intercalate (words cs))

/-- The rules for final text: a paragraph for every piece between the dictated breaks, less the
empty ones, with a blank line between. -/
def formatted (t : Text) : Text :=
  let paragraphs := (splitAt paragraphCommand t.chars).map formatParagraph
  { t with content := String.ofList (['\n', '\n'].intercalate (paragraphs.filter (!·.isEmpty))) }

/-! ## Other operations -/

/-- The text cut to `most` characters, the given ending included. A text that fits is kept, and an
ending that is too long is written in full. -/
def truncate (t : Text) (most : Nat) (ending : String) : Text :=
  if t.charCount ≤ most then t
  else
    -- an ending that is too long leaves no room for anything else
    let kept := t.chars.take (most - ending.length)
    { t with content := String.ofList kept ++ ending }

/-- The text with more at its end, checked for its length. -/
def append (t : Text) (more : String) : Except InvalidValue Text :=
  ofContent (t.content ++ more) t.isFinal

/-- The phrases that a dictation program takes for commands. -/
def speechCommands : List String :=
  ["new paragraph", "period", "comma", "question mark", "exclamation point"]

/-- Lower case for the characters whose lower-case form is an ASCII letter alone: A to Z and the
Kelvin sign. -/
def lowerAscii (c : Char) : Char :=
  if c == '\u212A' then 'k' else c.toLower

/-- Whether the text contains a speech command, in any case. -/
def hasSpeechCommand (t : Text) : Bool :=
  let lower := t.chars.map lowerAscii
  speechCommands.any fun command => hasPhrase command.toList lower

/-- Minutes to read the text; nothing at zero words a minute. -/
def readingMinutes? (t : Text) (wordsPerMinute : UInt32) : Option Float :=
  if wordsPerMinute = 0 then none
  else some (Float.ofNat t.wordCount / wordsPerMinute.toFloat)

end Text

end SpeechTranscript
