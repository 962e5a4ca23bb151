import SpeechTranscript.Decimal.Digits
import SpeechTranscript.Decimal.Exact
import SpeechTranscript.Json.Fault
import SpeechTranscript.Json.Value

/-!
# Reading JSON

Each reader takes a part from the front of a text and gives the rest, or the first fault. What a
value leaves is shorter than what it was read from, so readers of sequences end. Arrays and objects
may be nested 127 deep; the reader of values recurses on the depth that is left.
-/

namespace SpeechTranscript.Json

/-- A part from the front of a text that may take up nothing, with the rest. -/
structure Taken (α : Type) (cs : List Char) where
  value : α
  rest : List Char
  le : rest.length ≤ cs.length

/-- A part from the front of a text that takes up at least one character, with the rest. -/
structure Parsed (α : Type) (cs : List Char) where
  value : α
  rest : List Char
  shorter : rest.length < cs.length

/-- Something that reads a value from the front of a text. -/
abbrev Reader (α : Type) : Type := (cs : List Char) → Except Fault (Parsed α cs)

/-- The same part, seen from a text with more in front. -/
def Parsed.within {α : Type} {cs longer : List Char} (p : Parsed α cs)
    (h : cs.length ≤ longer.length) : Parsed α longer :=
  ⟨p.value, p.rest, Nat.lt_of_lt_of_le p.shorter h⟩

/-- The fault at the end of the text. -/
def atEnd {α : Type} (kind : FaultKind) : Except Fault α := .error ⟨kind, [], 0⟩

/-- The fault at the next byte of a text. -/
def atNext {α : Type} (kind : FaultKind) (cs : List Char) : Except Fault α := .error ⟨kind, cs, 1⟩

/-- The fault between what was read and what is left. -/
def before {α : Type} (kind : FaultKind) (cs : List Char) : Except Fault α := .error ⟨kind, cs, 0⟩

/-! ## Spaces and words -/

/-- The characters that may stand between the parts of a JSON text. -/
def isSpace (c : Char) : Bool := c == ' ' || c == '\n' || c == '\t' || c == '\r'

/-- A text without the spaces at its start. -/
def skipSpaces (cs : List Char) : List Char := cs.dropWhile isSpace

theorem length_skipSpaces_le (cs : List Char) : (skipSpaces cs).length ≤ cs.length :=
  (List.dropWhile_sublist isSpace).length_le

theorem length_lt_of_skipSpaces {cs rest : List Char} {c : Char} (h : skipSpaces cs = c :: rest) :
    rest.length < cs.length := by
  have := length_skipSpaces_le cs
  rw [h, List.length_cons] at this
  omega

def readLetters : (word cs : List Char) → Except Fault (Taken Unit cs)
  | [], cs => .ok ⟨(), cs, Nat.le_refl _⟩
  | _ :: _, [] => atEnd .unfinishedValue
  | letter :: word, c :: cs =>
    if c == letter then do
      let t ← readLetters word cs
      return ⟨(), t.rest, Nat.le_succ_of_le t.le⟩
    else atNext .unknownWord (c :: cs)

/-! ## Numbers -/

theorem length_dropWhile_lt {cs ds : List Char} {d : Char}
    (h : cs.takeWhile Char.isDigit = d :: ds) :
    (cs.dropWhile Char.isDigit).length < cs.length := by
  have whole : cs.takeWhile Char.isDigit ++ cs.dropWhile Char.isDigit = cs :=
    List.takeWhile_append_dropWhile
  have lengths := congrArg List.length whole
  rw [List.length_append, h, List.length_cons] at lengths
  omega

/-- Decimal digits from the front of a text, of which there must be one. -/
def readDigits (cs : List Char) : Except Fault (Parsed (List Char) cs) :=
  match here : cs.takeWhile Char.isDigit with
  | [] => if cs.isEmpty then atEnd .unfinishedValue else atNext .badNumber cs
  | digit :: digits =>
    .ok ⟨digit :: digits, cs.dropWhile Char.isDigit, length_dropWhile_lt here⟩

/-- The digits before the point; a zero stands alone. -/
def readWhole (cs : List Char) : Except Fault (Parsed (List Char) cs) := do
  let p ← readDigits cs
  match cs with
  | '0' :: second :: rest =>
    if second.isDigit then atNext .badNumber (second :: rest) else return p
  | _ => return p

/-- A point with the digits after it; no digits if there is no point. -/
def readFraction (cs : List Char) : Except Fault (Taken (List Char) cs) :=
  match cs with
  | '.' :: rest => do
    let p ← readDigits rest
    return ⟨p.value, p.rest, Nat.le_of_lt (Nat.lt_succ_of_lt p.shorter)⟩
  | rest => .ok ⟨[], rest, Nat.le_refl _⟩

def takeSign (cs : List Char) : Taken Bool cs :=
  match cs with
  | '+' :: rest => ⟨false, rest, Nat.le_succ _⟩
  | '-' :: rest => ⟨true, rest, Nat.le_succ _⟩
  | rest => ⟨false, rest, Nat.le_refl _⟩

/-- The mark of an exponent with its sign and its digits, if there is one. -/
def readExponent (cs : List Char) : Except Fault (Taken (Option (Bool × List Char)) cs) :=
  match cs with
  | c :: rest =>
    if c == 'e' || c == 'E' then do
      let sign := takeSign rest
      let p ← readDigits sign.rest
      return ⟨some (sign.value, p.value), p.rest,
        Nat.le_succ_of_le (Nat.le_trans (Nat.le_of_lt p.shorter) sign.le)⟩
    else .ok ⟨none, c :: rest, Nat.le_refl _⟩
  | [] => .ok ⟨none, [], Nat.le_refl _⟩

def largestExponent : Nat := 2147483647

/-- How many digits of an exponent are read when it passes the largest magnitude, if it does. -/
def digitsToOverflow (read n : Nat) : List Char → Option Nat
  | [] => none
  | d :: ds =>
    let n := Decimal.pushDigit n d
    if largestExponent < n then some (read + 1) else digitsToOverflow (read + 1) n ds

/-- A double within range; `rest` is what is left after the number. -/
def finiteFloat (x : Float) (rest : List Char) : Except Fault Json :=
  if x.isFinite then .ok (.float x) else before .numberOutOfRange rest

/-- A whole number: an integer if it fits into 64 bits, signed ones below zero. Minus zero is a
double. -/
def wholeNumber (negative : Bool) (n : Nat) (rest : List Char) : Except Fault Json :=
  if negative then
    if 0 < n ∧ n ≤ UInt64.size / 2 then .ok (.integer (-n))
    else finiteFloat (Decimal.ofDecimal true n 0) rest
  else if n < UInt64.size then .ok (.integer n)
  else finiteFloat (Decimal.ofDecimal false n 0) rest

/-- How many digits of a number are looked at. A point half way between two doubles has no more. -/
def digitsLookedAt : Nat := 768

/-- The double nearest to a number with a fraction, times `10 ^ power`. Zeros in front and zeros at
the end of the fraction do not count as digits. Whatever follows the digits that are looked at
counts as one more digit, a `1`: the number is past the digits before it. -/
def nearestFloat (negative : Bool) (whole fraction : List Char) (power : Int) : Float :=
  let fraction := (fraction.reverse.dropWhile (· == '0')).reverse
  let digits := (whole ++ fraction).dropWhile (· == '0')
  let exponent := power - fraction.length
  let more := digits.length - digitsLookedAt
  if more = 0 then Decimal.ofDecimal negative (Decimal.digitsValue digits) exponent
  else
    let shown := 10 * Decimal.digitsValue (digits.take digitsLookedAt) + 1
    Decimal.ofDecimal negative shown (exponent + more - 1)

/-- A number with a fraction or an exponent. An exponent past the largest magnitude gives zero if it
is negative or the digits are all zero. -/
def decimalNumber (negative : Bool) (whole fraction : List Char)
    (exponent : Option (Bool × List Char)) (rest : List Char) : Except Fault Json :=
  match exponent with
  | none => finiteFloat (nearestFloat negative whole fraction 0) rest
  | some (below, ds) =>
    match digitsToOverflow 0 0 ds with
    | some read =>
      if below || (whole ++ fraction).all (· == '0') then
        .ok (.float (if negative then -0.0 else 0.0))
      else before .numberOutOfRange (ds.drop read ++ rest)
    | none =>
      let magnitude : Int := Decimal.digitsValue ds
      finiteFloat
        (nearestFloat negative whole fraction (if below then -magnitude else magnitude)) rest

def readNumber (negative : Bool) : Reader Json := fun cs => do
  let whole ← readWhole cs
  let fraction ← readFraction whole.rest
  let exponent ← readExponent fraction.rest
  let value ←
    if fraction.value.isEmpty && exponent.value.isNone then
      wholeNumber negative (Decimal.digitsValue whole.value) exponent.rest
    else decimalNumber negative whole.value fraction.value exponent.value exponent.rest
  return ⟨value, exponent.rest,
    Nat.lt_of_le_of_lt (Nat.le_trans exponent.le fraction.le) whole.shorter⟩

/-! ## Strings -/

def hexValue? (c : Char) : Option Nat :=
  if c.isDigit then some (c.toNat - '0'.toNat)
  else if 'a' ≤ c && c ≤ 'f' then some (c.toNat - 'a'.toNat + 10)
  else if 'A' ≤ c && c ≤ 'F' then some (c.toNat - 'A'.toNat + 10)
  else none

/-- The value of four hexadecimal digits at the front of a text. -/
def fourHex? (cs : List Char) : Option (Nat × List Char) :=
  match cs with
  | a :: b :: c :: d :: rest => do
    let a ← hexValue? a
    let b ← hexValue? b
    let c ← hexValue? c
    let d ← hexValue? d
    return (((a * 16 + b) * 16 + c) * 16 + d, rest)
  | _ => none

theorem length_lt_of_fourHex? {cs rest : List Char} {n : Nat} (h : fourHex? cs = some (n, rest)) :
    rest.length < cs.length := by
  match cs, h with
  | a :: b :: c :: d :: more, h =>
    simp only [fourHex?, bind, Option.bind_eq_some_iff, pure, Option.some.injEq,
      Prod.mk.injEq] at h
    obtain ⟨_, _, _, _, _, _, _, _, _, rfl⟩ := h
    simp only [List.length_cons]
    omega

/-- Four hexadecimal digits. Four bytes that are something else are a bad escape. -/
def readHex (cs : List Char) : Except Fault (Parsed Nat cs) :=
  match h : fourHex? cs with
  | some (n, rest) => .ok ⟨n, rest, length_lt_of_fourHex? h⟩
  | none =>
    if byteCount (cs.take 4) < 4 then atEnd .unfinishedString
    else .error ⟨.badEscape, cs, 4⟩

def isLeading (n : Nat) : Bool := 0xD800 ≤ n && n ≤ 0xDBFF

def isTrailing (n : Nat) : Bool := 0xDC00 ≤ n && n ≤ 0xDFFF

def pairChar (leading trailing : Nat) : Char :=
  Char.ofNat ((leading - 0xD800) * 0x400 + (trailing - 0xDC00) + 0x10000)

/-- The second unit of a pair, with the escape that starts it. -/
def readTrailing (cs : List Char) : Except Fault (Parsed Nat cs) :=
  match cs with
  | [] => atEnd .unfinishedString
  | '\\' :: [] => atEnd .unfinishedString
  | '\\' :: 'u' :: rest => do
    let unit ← readHex rest
    if isTrailing unit.value then
      return unit.within (by simp only [List.length_cons]; omega)
    else before .loneSurrogate unit.rest
  | '\\' :: c :: rest => atNext .unfinishedPair (c :: rest)
  | c :: rest => atNext .unfinishedPair (c :: rest)

/-- The character of an escape by number, after its `u`. -/
def readUnicode (cs : List Char) : Except Fault (Parsed Char cs) := do
  let unit ← readHex cs
  if isTrailing unit.value then before .loneSurrogate unit.rest
  else if isLeading unit.value then
    let second ← readTrailing unit.rest
    return ⟨pairChar unit.value second.value, second.rest,
      Nat.lt_trans second.shorter unit.shorter⟩
  else return ⟨Char.ofNat unit.value, unit.rest, unit.shorter⟩

def escapedChar? (c : Char) : Option Char :=
  match c with
  | '"' => some '"'
  | '\\' => some '\\'
  | '/' => some '/'
  | 'b' => some '\x08'
  | 'f' => some '\x0c'
  | 'n' => some '\n'
  | 'r' => some '\r'
  | 't' => some '\t'
  | _ => none

def readEscape (cs : List Char) : Except Fault (Parsed Char cs) :=
  match cs with
  | [] => atEnd .unfinishedString
  | 'u' :: rest => do
    let c ← readUnicode rest
    return c.within (Nat.le_succ _)
  | c :: rest =>
    match escapedChar? c with
    | some escaped => .ok ⟨escaped, rest, Nat.lt_succ_self _⟩
    | none => atNext .badEscape (c :: rest)

/-- Reads on in a string of the text `whole` after its opening quote; `done` is what was read,
reversed. -/
def readStringFrom {whole : List Char} (done cs : List Char) (h : cs.length ≤ whole.length) :
    Except Fault (Parsed String whole) :=
  match cs with
  | [] => atEnd .unfinishedString
  | '"' :: rest => .ok ⟨String.ofList done.reverse, rest, h⟩
  | '\\' :: rest =>
    match readEscape rest with
    | .error fault => .error fault
    | .ok escaped =>
      have : escaped.rest.length < rest.length + 1 := Nat.lt_succ_of_lt escaped.shorter
      readStringFrom (escaped.value :: done) escaped.rest (Nat.le_trans (Nat.le_of_lt this) h)
  | c :: rest =>
    if c.toNat < 0x20 then atNext .controlCharacter (c :: rest)
    else
      have : rest.length < rest.length + 1 := Nat.lt_succ_self _
      readStringFrom (c :: done) rest (Nat.le_of_succ_le h)
termination_by cs.length
decreasing_by all_goals exact this

def readString : Reader String := fun cs => readStringFrom [] cs (Nat.le_refl _)

/-! ## Arrays and objects -/

/-- Reads on in an array of the text `whole` after an item; `done` holds the items read,
reversed. -/
def readItemsFrom {whole : List Char} (item : Reader Json) (done : List Json) (cs : List Char)
    (h : cs.length ≤ whole.length) : Except Fault (Parsed Json whole) :=
  match here : skipSpaces cs with
  | [] => atEnd .unfinishedList
  | ']' :: rest =>
    .ok ⟨.array done.reverse, rest, Nat.lt_of_lt_of_le (length_lt_of_skipSpaces here) h⟩
  | ',' :: rest =>
    match skipSpaces rest with
    | [] => atEnd .unfinishedValue
    | ']' :: more => atNext .trailingComma (']' :: more)
    | _ =>
      match item rest with
      | .error fault => .error fault
      | .ok p =>
        have : p.rest.length < cs.length :=
          Nat.lt_trans p.shorter (length_lt_of_skipSpaces here)
        readItemsFrom item (p.value :: done) p.rest (Nat.le_trans (Nat.le_of_lt this) h)
  | c :: rest => atNext .missingListComma (c :: rest)
termination_by cs.length

def readItems (item : Reader Json) : Reader Json := fun cs =>
  match here : skipSpaces cs with
  | [] => atEnd .unfinishedList
  | ']' :: rest => .ok ⟨.array [], rest, length_lt_of_skipSpaces here⟩
  | _ =>
    match item cs with
    | .error fault => .error fault
    | .ok p => readItemsFrom item [p.value] p.rest (Nat.le_of_lt p.shorter)

/-- A member of an object after the opening quote of its name. -/
def readMember (value : Reader Json) : Reader (String × Json) := fun cs => do
  let name ← readString cs
  match here : skipSpaces name.rest with
  | [] => atEnd .unfinishedObject
  | ':' :: rest =>
    let v ← value rest
    return ⟨(name.value, v.value), v.rest,
      Nat.lt_trans v.shorter (Nat.lt_trans (length_lt_of_skipSpaces here) name.shorter)⟩
  | c :: rest => atNext .missingColon (c :: rest)

/-- Reads on in an object of the text `whole` after a member; `done` holds the members read,
reversed. -/
def readMembersFrom {whole : List Char} (value : Reader Json) (done : List (String × Json))
    (cs : List Char) (h : cs.length ≤ whole.length) : Except Fault (Parsed Json whole) :=
  match here : skipSpaces cs with
  | [] => atEnd .unfinishedObject
  | '\x7d' :: rest =>
    .ok ⟨.object done.reverse, rest, Nat.lt_of_lt_of_le (length_lt_of_skipSpaces here) h⟩
  | ',' :: rest =>
    match next : skipSpaces rest with
    | [] => atEnd .unfinishedValue
    | '"' :: more =>
      match readMember value more with
      | .error fault => .error fault
      | .ok p =>
        have : p.rest.length < cs.length :=
          Nat.lt_trans p.shorter
            (Nat.lt_trans (length_lt_of_skipSpaces next) (length_lt_of_skipSpaces here))
        readMembersFrom value (p.value :: done) p.rest (Nat.le_trans (Nat.le_of_lt this) h)
    | '\x7d' :: more => atNext .trailingComma ('\x7d' :: more)
    | c :: more => atNext .keyNotString (c :: more)
  | c :: rest => atNext .missingObjectComma (c :: rest)
termination_by cs.length

def readMembers (value : Reader Json) : Reader Json := fun cs =>
  match here : skipSpaces cs with
  | [] => atEnd .unfinishedObject
  | '\x7d' :: rest => .ok ⟨.object [], rest, length_lt_of_skipSpaces here⟩
  | '"' :: rest =>
    match readMember value rest with
    | .error fault => .error fault
    | .ok p =>
      readMembersFrom value [p.value] p.rest
        (Nat.le_of_lt (Nat.lt_trans p.shorter (length_lt_of_skipSpaces here)))
  | c :: rest => atNext .keyNotString (c :: rest)

/-! ## Values -/

/-- A word after its first letter, which stands for a value. -/
def readWord (word : String) (value : Json) {cs rest : List Char} (h : rest.length < cs.length) :
    Except Fault (Parsed Json cs) := do
  let t ← readLetters word.toList rest
  return ⟨value, t.rest, Nat.lt_of_le_of_lt t.le h⟩

/-- A value after spaces. `nested` reads what stands inside arrays and objects; without it, these
are nested too deep. -/
def readValueWith (nested : Option (Reader Json)) : Reader Json := fun cs =>
  match here : skipSpaces cs with
  | [] => atEnd .unfinishedValue
  | c :: rest =>
    have shorter : rest.length < cs.length := length_lt_of_skipSpaces here
    if c == 'n' then readWord "ull" .null shorter
    else if c == 't' then readWord "rue" (.bool true) shorter
    else if c == 'f' then readWord "alse" (.bool false) shorter
    else if c == '-' then do
      let n ← readNumber true rest
      return n.within (Nat.le_of_lt shorter)
    else if c.isDigit then do
      let n ← readNumber false (c :: rest)
      return n.within (here ▸ length_skipSpaces_le cs)
    else if c == '"' then do
      let s ← readString rest
      return ⟨.string s.value, s.rest, Nat.lt_trans s.shorter shorter⟩
    else if c == '[' || c == '\x7b' then
      match nested with
      | none => atNext .tooDeep (c :: rest)
      | some item => do
        let p ← if c == '[' then readItems item rest else readMembers item rest
        return p.within (Nat.le_of_lt shorter)
    else atNext .missingValue (c :: rest)

def deepest : Nat := 127

/-- A value with at most `depth` levels of arrays and objects in it. -/
def readValue : (depth : Nat) → Reader Json
  | 0 => readValueWith none
  | depth + 1 => readValueWith (some (readValue depth))

/-- The first value of a text, and what is left after it. -/
def readFirst (cs : List Char) : Except Fault (Json × List Char) := do
  let p ← readValue deepest cs
  return (p.value, p.rest)

/-- Nothing but spaces may be left. -/
def readEnd (cs : List Char) : Except Fault Unit :=
  match skipSpaces cs with
  | [] => .ok ()
  | rest => atNext .trailingCharacters rest

def read (cs : List Char) : Except Fault Json := do
  let (value, rest) ← readFirst cs
  readEnd rest
  return value

end SpeechTranscript.Json
