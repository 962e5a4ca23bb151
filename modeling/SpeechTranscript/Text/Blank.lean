/-!
# Blanks

The characters that separate words: those with the Unicode property `White_Space`, 25 in all. The
zero-width space and the byte order mark are not among them.
-/

namespace SpeechTranscript.Text

/-- Whether a character separates words. -/
def isBlank (c : Char) : Bool :=
  let n := c.toNat
  (0x09 ≤ n && n ≤ 0x0D) || n == 0x20 || n == 0x85 || n == 0xA0 || n == 0x1680 ||
    (0x2000 ≤ n && n ≤ 0x200A) || n == 0x2028 || n == 0x2029 || n == 0x202F || n == 0x205F ||
    n == 0x3000

def trimStart (cs : List Char) : List Char := cs.dropWhile isBlank

def trimEnd (cs : List Char) : List Char := (cs.reverse.dropWhile isBlank).reverse

def trim (cs : List Char) : List Char := trimEnd (trimStart cs)

/-- A string without the blanks around it. -/
def trimmed (s : String) : String := String.ofList (trim s.toList)

def allBlank (cs : List Char) : Bool := cs.all isBlank

end SpeechTranscript.Text
