/-!
# Byte strings

Everything the server reads, holds and answers is a string of bytes: request
targets, header fields, file names, page contents. A byte string is a list of
bytes, and text constants of the program are written as ASCII literals, which
turn into byte strings by themselves.

Letter case and white space are those of ASCII: a byte above `0x7f` is no
letter, no digit and no blank.

* `Bytes.sameFolded`: equality up to the case of letters;
* `Bytes.trim`: the string without the white space around it;
* `Bytes.break1`: the parts before and after the first occurrence of a byte;
* `Bytes.find?`: the place of the first occurrence of a string;
* `Bytes.toNul`: the part that a reader stopping at a NUL byte sees.
-/

namespace PageServer

/-- One byte. -/
abbrev Byte := UInt8

/-- A string of bytes. -/
abbrev Bytes := List Byte

/-- The bytes of an ASCII text. -/
def ascii (text : String) : Bytes :=
  text.toList.map fun c => UInt8.ofNat c.toNat

instance : Coe String Bytes := ⟨ascii⟩

namespace Byte

abbrev lineFeed : Byte := 10
abbrev carriageReturn : Byte := 13
abbrev blank : Byte := 32
abbrev quote : Byte := 34
abbrev percent : Byte := 37
abbrev ampersand : Byte := 38
abbrev plus : Byte := 43
abbrev minus : Byte := 45
abbrev dot : Byte := 46
abbrev slash : Byte := 47
abbrev colon : Byte := 58
abbrev semicolon : Byte := 59
abbrev equals : Byte := 61
abbrev question : Byte := 63
abbrev backslash : Byte := 92

/-- White space: blank, tab, line feed, vertical tab, form feed and carriage
    return. -/
def isSpace (b : Byte) : Bool := b == 32 || (9 ≤ b && b ≤ 13)

def isDigit (b : Byte) : Bool := 48 ≤ b && b ≤ 57

def isUpper (b : Byte) : Bool := 65 ≤ b && b ≤ 90

def isLower (b : Byte) : Bool := 97 ≤ b && b ≤ 122

def isAlpha (b : Byte) : Bool := b.isUpper || b.isLower

def isAlnum (b : Byte) : Bool := b.isAlpha || b.isDigit

def isHexDigit (b : Byte) : Bool :=
  b.isDigit || (65 ≤ b && b ≤ 70) || (97 ≤ b && b ≤ 102)

/-- The byte with a capital letter made small. -/
def lower (b : Byte) : Byte := if b.isUpper then b + 32 else b

/-- The byte with a small letter made capital. -/
def upper (b : Byte) : Byte := if b.isLower then b - 32 else b

/-- The value of a digit in a base of up to thirty-six; letters of either case
    count on from ten, and any other byte is no digit. -/
def digitValue (b : Byte) : Option Nat :=
  if b.isDigit then some (b.toNat - 48)
  else if b.isUpper then some (b.toNat - 55)
  else if b.isLower then some (b.toNat - 87)
  else none

/-- The digit of a value below sixteen, letters small. -/
def ofDigit (d : Nat) : Byte :=
  if d < 10 then UInt8.ofNat (48 + d) else UInt8.ofNat (87 + d)

end Byte

namespace Bytes

/-- The string with capital letters made small. -/
def lower (s : Bytes) : Bytes := s.map Byte.lower

/-- The string with small letters made capital. -/
def upper (s : Bytes) : Bytes := s.map Byte.upper

/-- Equality up to the case of letters. -/
def sameFolded (a b : Bytes) : Bool := lower a == lower b

/-- The byte order of the strings with capital letters made small. -/
def compareFolded (a b : Bytes) : Ordering := compare (lower a) (lower b)

instance : Std.TransCmp compareFolded where
  eq_swap {a b} := by
    rw [compareFolded, compareFolded]
    exact Std.OrientedCmp.eq_swap
  isLE_trans {a b c} hab hbc := by
    rw [compareFolded] at hab hbc ⊢
    exact Std.TransCmp.isLE_trans hab hbc

/-- The string without the bytes of class `p` at both ends. -/
def trimBy (p : Byte → Bool) (s : Bytes) : Bytes :=
  ((s.dropWhile p).reverse.dropWhile p).reverse

/-- The string without the white space around it. -/
def trim (s : Bytes) : Bytes := trimBy Byte.isSpace s

/-- The part before the first `sep`, and what follows that `sep`, if there is
    one. -/
def break1 (sep : Byte) (s : Bytes) : Bytes × Option Bytes :=
  match s.dropWhile (· != sep) with
  | [] => (s, none)
  | _ :: rest => (s.takeWhile (· != sep), some rest)

/-- The place of the first occurrence of `needle`, counted from `start`. -/
def findFrom? (needle : Bytes) (start : Nat) : Bytes → Option Nat
  | [] => if needle.isEmpty then some start else none
  | b :: rest =>
    if needle.isPrefixOf (b :: rest) then some start else findFrom? needle (start + 1) rest

/-- The place of the first occurrence of `needle`. -/
def find? (needle s : Bytes) : Option Nat := findFrom? needle 0 s

/-- Whether `needle` occurs in the string. -/
def contains (s needle : Bytes) : Bool := (find? needle s).isSome

/-- The part before the first NUL byte: what a reader of zero-terminated
    strings sees. -/
def toNul (s : Bytes) : Bytes := s.takeWhile (· != 0)

/-- The part after the last `/`, or the whole string without one. -/
def baseName (s : Bytes) : Bytes := (s.reverse.takeWhile (· != Byte.slash)).reverse

/-- The string with `data` written over it from an offset on. Between its end
    and the offset it is filled up with zeros. -/
def overwrite (s : Bytes) (offset : Nat) (data : Bytes) : Bytes :=
  s.take offset ++ List.replicate (offset - s.length) 0 ++ data ++ s.drop (offset + data.length)

/-- The strings joined, with `sep` between neighbours. -/
def join (sep : Bytes) (parts : List Bytes) : Bytes := sep.intercalate parts

end Bytes

end PageServer
