import PageServer.Bytes

/-!
# Sets of bytes in patterns

A set is written in brackets as a list of bytes, ranges, classes and
equivalences, or as a single class escape such as `\d`. Classes and bytes can
be given by name. Ranges follow the order of signed bytes, so those above
`0x7f` come before all others.
-/

namespace PageServer.Regex

/-- A named class of bytes. -/
inductive ByteClass
  | alnum
  | alpha
  | blank
  | control
  | digit
  | graph
  | lower
  | print
  | punct
  | space
  | upper
  | hexDigit
  /-- Letters, digits and the underscore. -/
  | word
  deriving DecidableEq, Repr

namespace ByteClass

/-- Whether a byte is in the class; none above `0x7e` but the control byte
    `0x7f` is in any. -/
def contains (c : ByteClass) (b : Byte) : Bool :=
  match c with
  | alnum => b.isAlnum
  | alpha => b.isAlpha
  | blank => b == 32 || b == 9
  | control => b < 32 || b == 127
  | digit => b.isDigit
  | graph => 33 ≤ b && b ≤ 126
  | lower => b.isLower
  | print => 32 ≤ b && b ≤ 126
  | punct => 33 ≤ b && b ≤ 126 && !b.isAlnum
  | space => b.isSpace
  | upper => b.isUpper
  | hexDigit => b.isHexDigit
  | word => b.isAlnum || b == 95

/-- The names of the classes. -/
def names : List (Bytes × ByteClass) :=
  [("d", digit), ("w", word), ("s", space), ("alnum", alnum), ("alpha", alpha), ("blank", blank),
    ("cntrl", control), ("digit", digit), ("graph", graph), ("lower", lower), ("print", print),
    ("punct", punct), ("space", space), ("upper", upper), ("xdigit", hexDigit)]

/-- The class with the given name, in any letter case. -/
def ofName? (name : Bytes) : Option ByteClass :=
  (names.find? (·.1 == name.lower)).map (·.2)

end ByteClass

/-- The names of the bytes below `0x80`, in the order of the bytes. -/
def byteNames : List Bytes :=
  List.map ascii ["NUL", "SOH", "STX", "ETX", "EOT", "ENQ", "ACK", "alert", "backspace", "tab", "newline",
    "vertical-tab", "form-feed", "carriage-return", "SO", "SI", "DLE", "DC1", "DC2", "DC3", "DC4",
    "NAK", "SYN", "ETB", "CAN", "EM", "SUB", "ESC", "IS4", "IS3", "IS2", "IS1", "space",
    "exclamation-mark", "quotation-mark", "number-sign", "dollar-sign", "percent-sign",
    "ampersand", "apostrophe", "left-parenthesis", "right-parenthesis", "asterisk", "plus-sign",
    "comma", "hyphen", "period", "slash", "zero", "one", "two", "three", "four", "five", "six",
    "seven", "eight", "nine", "colon", "semicolon", "less-than-sign", "equals-sign",
    "greater-than-sign", "question-mark", "commercial-at", "A", "B", "C", "D", "E", "F", "G", "H",
    "I", "J", "K", "L", "M", "N", "O", "P", "Q", "R", "S", "T", "U", "V", "W", "X", "Y", "Z",
    "left-square-bracket", "backslash", "right-square-bracket", "circumflex", "underscore",
    "grave-accent", "a", "b", "c", "d", "e", "f", "g", "h", "i", "j", "k", "l", "m", "n", "o", "p",
    "q", "r", "s", "t", "u", "v", "w", "x", "y", "z", "left-curly-bracket", "vertical-line",
    "right-curly-bracket", "tilde", "DEL"]

/-- The byte with the given name. -/
def namedByte? (name : Bytes) : Option Byte := (byteNames.findIdx? (· == name)).map UInt8.ofNat

/-- The place of a byte in the order of signed bytes. -/
def signedRank (b : Byte) : Byte := b ^^^ 0x80

/-- One entry of a set. -/
inductive SetItem
  | byte (b : Byte)
  | range (low high : Byte)
  | named (c : ByteClass)
  | notNamed (c : ByteClass)
  /-- A byte in either letter case. -/
  | folded (b : Byte)
  deriving DecidableEq, Repr

/-- Whether a byte is among an entry. -/
def SetItem.contains (item : SetItem) (b : Byte) : Bool :=
  match item with
  | byte x => b == x
  | range low high => signedRank low ≤ signedRank b && signedRank b ≤ signedRank high
  | named c => c.contains b
  | notNamed c => !c.contains b
  | folded x => b.lower == x.lower

/-- A set of bytes: those among its entries, or all others. -/
structure ByteSet where
  negated : Bool := false
  items : List SetItem := []
  deriving DecidableEq, Repr

namespace ByteSet

/-- Whether a byte is in the set. -/
def contains (s : ByteSet) (b : Byte) : Bool := (s.items.any (·.contains b)) != s.negated

/-- The set of one byte. -/
def single (b : Byte) : ByteSet := { items := [.byte b] }

/-- All bytes but those that end a line. -/
def inLine : ByteSet := { negated := true, items := [.byte 10, .byte 13] }

end ByteSet

/-- The class that a letter after a backslash stands for, and whether it stands
    for all bytes outside of it. -/
def escapedClass? (letter : Byte) : Option (ByteClass × Bool) :=
  if letter.lower == 100 then some (.digit, letter.isUpper)
  else if letter.lower == 115 then some (.space, letter.isUpper)
  else if letter.lower == 119 then some (.word, letter.isUpper)
  else none

end PageServer.Regex
