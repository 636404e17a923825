import PageServer.Numeral
import PageServer.Regex.ByteSet

/-!
# Tokens of patterns

A pattern is read as a list of tokens. Inside of brackets and of braces other
rules hold than outside, and it is the tokens themselves that open and close
these.

A place where there is no token ends the list with the reason (`Token.bad`), so
that it is not found before the reader gets there.
-/

namespace PageServer.Regex

/-- Why a text is no pattern. -/
inductive PatternError
  | unbalancedGroup
  | unknownGroupKind
  | unclosedSet
  | incompleteClass
  | badClass
  | unknownClass
  | badElement
  | unknownElement
  | unknownEquivalence
  | badRange
  | badRangeStart
  | badRangeEnd
  | badRepeat
  | unclosedRepeat
  | escapeAtEnd
  | badEscape
  | badControl
  | badByteCode
  | badUnitCode
  | noSuchGroup
  | openGroup
  | numberTooLarge
  | tooManyStates
  deriving DecidableEq, Repr

/-- The error in words. -/
def PatternError.message : PatternError → Bytes
  | unbalancedGroup => "Mismatched '(' and ')' in regular expression"
  | unknownGroupKind => "Invalid '(?...)' zero-width assertion in regular expression"
  | unclosedSet => "Unexpected character within '[...]' in regular expression"
  | incompleteClass => "Incomplete '[[' character class in regular expression"
  | badClass => "Invalid character class in regular expression"
  | unknownClass => "Invalid character class."
  | badElement => "Invalid collating element in regular expression"
  | unknownElement => "Invalid collate element."
  | unknownEquivalence => "Invalid equivalence class."
  | badRange => "Invalid range in bracket expression."
  | badRangeStart => "Invalid start of '[x-x]' range in regular expression"
  | badRangeEnd => "Invalid end of '[x-x]' range in regular expression"
  | badRepeat => "Invalid range in '\x7b\x7d' in regular expression"
  | unclosedRepeat => "Mismatched '\x7b' and '\x7d' in regular expression"
  | escapeAtEnd => "Invalid escape at end of regular expression"
  | badEscape => "Invalid escape in regular expression"
  | badControl => "invalid '\\cX' control character in regular expression"
  | badByteCode => "Invalid '\\xNN' control character in regular expression"
  | badUnitCode => "Invalid '\\uNNNN' control character in regular expression"
  | noSuchGroup => "Back-reference index exceeds current sub-expression count."
  | openGroup => "Back-reference referred to an opened sub-expression."
  | numberTooLarge => "invalid back reference"
  | tooManyStates =>
    "Number of NFA states exceeds limit. Please use shorter regex string, or use smaller brace expression, or make _GLIBCXX_REGEX_STATE_LIMIT larger."

/-- A token of a pattern. -/
inductive Token
  /-- A byte that stands for itself. -/
  | byte (b : Byte)
  | any
  | lineStart
  | lineEnd
  | wordEdge (negated : Bool)
  /-- A class given by a letter. -/
  | class_ (c : ByteClass) (negated : Bool)
  | backReference (digits : Bytes)
  | star
  | plus
  | optional
  | bar
  /-- Opens a group that captures. -/
  | groupOpen
  /-- Opens a group that does not capture. -/
  | plainOpen
  | lookaheadOpen (negated : Bool)
  | groupClose
  | setOpen (negated : Bool)
  | setClose
  | dash
  | element (name : Bytes)
  | equivalence (name : Bytes)
  | className (name : Bytes)
  | repeatOpen
  | count (digits : Bytes)
  | comma
  | repeatClose
  /-- The end of the pattern. -/
  | stop
  | bad (error : PatternError)
  deriving DecidableEq, Repr

/-- Where in a pattern the next token stands. -/
inductive Mode
  | outside
  | inSet
  | inRepeat
  deriving DecidableEq, Repr

namespace Token

/-- The byte that a letter after a backslash stands for. -/
def escapedByte? (letter : Byte) (mode : Mode) : Option Byte :=
  if letter == 48 then some 0
  else if letter == 98 ∧ mode = .inSet then some 8
  else if letter == 102 then some 12
  else if letter == 110 then some 10
  else if letter == 114 then some 13
  else if letter == 116 then some 9
  else if letter == 118 then some 11
  else none

/-- A byte given by so many hexadecimal digits, of which the last two count. -/
def scanCode (n : Nat) (e : PatternError) (s : Bytes) : Except PatternError (Token × Bytes) :=
  let digits := s.take n
  if digits.length = n ∧ digits.all Byte.isHexDigit then
    .ok (.byte (UInt8.ofNat (Numeral.value 16 digits)), s.drop n)
  else .error e

/-- The token after a backslash. -/
def scanEscape (mode : Mode) (s : Bytes) : Except PatternError (Token × Bytes) :=
  match s with
  | [] => .error (if mode = .inSet then .badEscape else .escapeAtEnd)
  | c :: rest =>
    match escapedByte? c mode, escapedClass? c with
    | some b, _ => .ok (.byte b, rest)
    | none, some (cls, negated) => .ok (.class_ cls negated, rest)
    | none, none =>
      if c == 98 then .ok (.wordEdge false, rest)
      else if c == 66 then .ok (.wordEdge true, rest)
      else if c == 99 then
        match rest with
        | [] => .error .badControl
        | b :: rest' => .ok (.byte b, rest')
      else if c == 120 then scanCode 2 .badByteCode rest
      else if c == 117 then scanCode 4 .badUnitCode rest
      else if c.isDigit then
        .ok (.backReference (c :: rest.takeWhile Byte.isDigit), rest.dropWhile Byte.isDigit)
      else .ok (.byte c, rest)

/-- The token of an opened group. -/
def scanGroup (s : Bytes) : Except PatternError (Token × Bytes) :=
  match s with
  | 63 :: [] => .error .unbalancedGroup
  | 63 :: 58 :: rest => .ok (.plainOpen, rest)
  | 63 :: 61 :: rest => .ok (.lookaheadOpen false, rest)
  | 63 :: 33 :: rest => .ok (.lookaheadOpen true, rest)
  | 63 :: _ => .error .unknownGroupKind
  | _ => .ok (.groupOpen, s)

/-- The token that starts with a byte outside of brackets and braces. -/
def scanOutside (b : Byte) (rest : Bytes) : Except PatternError (Token × Mode × Bytes) :=
  let one (t : Token) : Except PatternError (Token × Mode × Bytes) := .ok (t, .outside, rest)
  if b == 92 then do
    let (t, rest') ← scanEscape .outside rest
    return (t, .outside, rest')
  else if b == 40 then do
    let (t, rest') ← scanGroup rest
    return (t, .outside, rest')
  else if b == 41 then one .groupClose
  else if b == 91 then
    match rest with
    | 94 :: rest' => .ok (.setOpen true, .inSet, rest')
    | _ => .ok (.setOpen false, .inSet, rest)
  else if b == 123 then .ok (.repeatOpen, .inRepeat, rest)
  else if b == 94 then one .lineStart
  else if b == 36 then one .lineEnd
  else if b == 46 then one .any
  else if b == 42 then one .star
  else if b == 43 then one .plus
  else if b == 63 then one .optional
  else if b == 124 then one .bar
  else one (.byte b)

/-- A name up to the given mark and a closing bracket. -/
def scanName (mark : Byte) (s : Bytes) : Option (Bytes × Bytes) :=
  match s.dropWhile (· != mark) with
  | _ :: 93 :: rest => some (s.takeWhile (· != mark), rest)
  | _ => none

/-- The token that starts with a byte in brackets. -/
def scanInSet (b : Byte) (rest : Bytes) : Except PatternError (Token × Mode × Bytes) :=
  if b == 45 then .ok (.dash, .inSet, rest)
  else if b == 91 then
    match rest with
    | [] => .error .incompleteClass
    | mark :: tail =>
      if mark == 46 then
        match scanName mark tail with
        | some (name, rest') => .ok (.element name, .inSet, rest')
        | none => .error .badElement
      else if mark == 58 then
        match scanName mark tail with
        | some (name, rest') => .ok (.className name, .inSet, rest')
        | none => .error .badClass
      else if mark == 61 then
        match scanName mark tail with
        | some (name, rest') => .ok (.equivalence name, .inSet, rest')
        | none => .error .badElement
      else .ok (.byte b, .inSet, rest)
  else if b == 93 then .ok (.setClose, .outside, rest)
  else if b == 92 then do
    let (t, rest') ← scanEscape .inSet rest
    return (t, .inSet, rest')
  else .ok (.byte b, .inSet, rest)

/-- The token that starts with a byte in braces. -/
def scanInRepeat (b : Byte) (rest : Bytes) : Except PatternError (Token × Mode × Bytes) :=
  if b.isDigit then
    .ok (.count (b :: rest.takeWhile Byte.isDigit), .inRepeat, rest.dropWhile Byte.isDigit)
  else if b == 44 then .ok (.comma, .inRepeat, rest)
  else if b == 125 then .ok (.repeatClose, .outside, rest)
  else .error .badRepeat

/-- The token that starts with a byte. -/
def scan (mode : Mode) (b : Byte) (rest : Bytes) : Except PatternError (Token × Mode × Bytes) :=
  match mode with
  | .outside => scanOutside b rest
  | .inSet => scanInSet b rest
  | .inRepeat => scanInRepeat b rest

/-- At most so many tokens of a text. -/
def listFor : Nat → Mode → Bytes → List Token
  | _, _, [] => [.stop]
  | 0, _, _ => [.stop]
  | n + 1, mode, b :: rest =>
    match scan mode b rest with
    | .error e => [.bad e]
    | .ok (t, mode', rest') => t :: listFor n mode' rest'

/-- The tokens of a text, up to its end or to the first place without one. A
    token takes at least one byte. -/
def list (text : Bytes) : List Token := listFor text.length .outside text

end Token

end PageServer.Regex
