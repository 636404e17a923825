import PageServer.Bytes

/-!
# Integers in text

Three kinds of integers are read from text.

* A *signed number* may have white space and a sign in front, and is followed
  by whatever comes after its digits (`readSigned`). It must fit sixty-four
  bits.
* An *exact signed number* is one that fills its text (`exactSigned`): the
  form of numbers in a request target.
* A *count* is unsigned and starts with a digit (`count`): the form of body
  lengths and chunk sizes. It is read from a zero-terminated text, and a
  hexadecimal count may have `0x` in front.

Integers are written in decimal (`ofInt`, `ofNat`), and sixty-four bits in
sixteen hexadecimal digits (`hex64`).
-/

namespace PageServer

/-- How many numbers sixty-four bits can stand for. -/
def wordCount : Nat := 0x10000000000000000

/-- The least signed number of sixty-four bits. -/
def int64Min : Int := -0x8000000000000000

/-- The greatest signed number of sixty-four bits. -/
def int64Max : Int := 0x7fffffffffffffff

/-- The signed number that the low sixty-four bits of `n` stand for. -/
def wrapInt64 (n : Int) : Int := n.bmod wordCount

namespace Numeral

/-- Whether the byte is a digit of the base. -/
def isDigitOf (base : Nat) (b : Byte) : Bool :=
  match b.digitValue with
  | some d => d < base
  | none => false

/-- The value of digits, the most significant first; bytes that are no digits
    count as zero. -/
def value (base : Nat) (digits : Bytes) : Nat :=
  digits.foldl (fun n b => n * base + b.digitValue.getD 0) 0

/-- The digits of the base in front of the text, and the rest. -/
def spanDigits (base : Nat) (s : Bytes) : Bytes × Bytes := s.span (isDigitOf base)

/-- The sign in front of the text, whether it is a minus, and the rest. -/
def takeSign : Bytes → Bool × Bytes
  | 45 :: rest => (true, rest)
  | 43 :: rest => (false, rest)
  | s => (false, s)

/-- A decimal number in front of the text, after white space and a sign, and
    the rest of the text; none if there is no digit. -/
def readSigned (s : Bytes) : Option (Int × Bytes) :=
  let (negative, unsigned) := takeSign (s.dropWhile Byte.isSpace)
  match spanDigits 10 unsigned with
  | ([], _) => none
  | (digits, rest) =>
    let n : Int := value 10 digits
    some (if negative then -n else n, rest)

/-- Whether the number fits sixty-four bits, the sign included. -/
def fitsInt64 (n : Int) : Bool := int64Min ≤ n && n ≤ int64Max

/-- The number that fills the text: an optional sign and digits, and nothing
    around them, within sixty-four bits. -/
def exactSigned (s : Bytes) : Option Int :=
  match s with
  | [] => none
  | b :: _ =>
    if b.isSpace then none
    else match readSigned s with
      | some (n, []) => if fitsInt64 n then some n else none
      | _ => none

/-- The text after `0x` or `0X`, where a hexadecimal digit follows. -/
def dropHexMark (s : Bytes) : Bytes :=
  match s with
  | 48 :: x :: d :: rest => if (x == 120 || x == 88) && d.isHexDigit then d :: rest else s
  | _ => s

/-- The count that fills a zero-terminated text which starts with a
    hexadecimal digit: digits of the base, in base sixteen with an optional
    `0x` in front, less than `wordCount`. -/
def count (base : Nat) (s : Bytes) : Option Nat :=
  match s with
  | [] => none
  | b :: _ =>
    if !b.isHexDigit then none
    else
      let text := s.toNul
      match spanDigits base (if base = 16 then dropHexMark text else text) with
      | ([], _) => none
      | (digits, []) =>
        let n := value base digits
        if n < wordCount then some n else none
      | (_, _ :: _) => none

/-- The decimal digits of a natural number. -/
def ofNat (n : Nat) : Bytes := (Nat.toDigits 10 n).map fun c => UInt8.ofNat c.toNat

/-- An integer in decimal, with a minus in front if it is negative. -/
def ofInt : Int → Bytes
  | .ofNat n => ofNat n
  | .negSucc n => Byte.minus :: ofNat (n + 1)

/-- The lowest `k` hexadecimal digits of a number, the most significant
    first. -/
def hexDigits : Nat → Nat → Bytes
  | 0, _ => []
  | k + 1, n => hexDigits k (n / 16) ++ [Byte.ofDigit (n % 16)]

/-- Sixty-four bits as sixteen hexadecimal digits. -/
def hex64 (n : UInt64) : Bytes := hexDigits 16 n.toNat

end Numeral

end PageServer
