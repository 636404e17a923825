import PageServer.Binary64.Basic

/-!
# Floating point numbers in text

Numbers are read in decimal, with or without a point and an exponent, in
hexadecimal with a power of two, and as the words for infinity and NaN
(`Binary64.read`). The text stands for an exact quotient, of which the nearest
double is taken.

They are written with a fixed number of decimals (`Binary64.fixed`) or with six
significant digits (`Binary64.general`), both rounded from the exact value,
ties to even.
-/

namespace PageServer.Binary64

/-! ### Reading -/

/-- Digits with at most one point among them: the digits without the point,
    how many stand behind it, and the rest of the text. -/
def readPointed (base : Nat) (s : Bytes) : Bytes × Nat × Bytes :=
  let (whole, rest) := Numeral.spanDigits base s
  match rest with
  | 46 :: tail =>
    let (part, rest') := Numeral.spanDigits base tail
    if whole.isEmpty ∧ part.isEmpty then ([], 0, s) else (whole ++ part, part.length, rest')
  | _ => (whole, 0, rest)

/-- An exponent after one of the given letters: its value and the rest; zero
    and the whole text where no digits follow. -/
def readExponent (isMark : Byte → Bool) (s : Bytes) : Int × Bytes :=
  match s with
  | [] => (0, s)
  | mark :: tail =>
    if !isMark mark then (0, s)
    else
      let (negative, unsigned) := Numeral.takeSign tail
      match Numeral.spanDigits 10 unsigned with
      | ([], _) => (0, s)
      | (digits, rest) =>
        let n : Int := Numeral.value 10 digits
        (if negative then -n else n, rest)

/-- `m * base ^ e` to the nearest double. The size of `m` in digits of the base
    and `bound` decide the cases too large and too small to compute. -/
def ofScaled (negative : Bool) (m base : Nat) (e size bound : Int) : Binary64 :=
  if m = 0 then zero negative
  else if bound < size + e then infinity negative
  else if size + e < -bound then zero negative
  else if e < 0 then ofRatio negative m (base.pow e.natAbs)
  else ofRatio negative (m * base.pow e.natAbs) 1

/-- The number of decimal digits. -/
def decimalSize (m : Nat) : Nat := (Nat.toDigits 10 m).length

/-- A decimal number in front of the text. -/
def readDecimal (negative : Bool) (s : Bytes) : Option (Binary64 × Bytes) :=
  match readPointed 10 s with
  | ([], _, _) => none
  | (digits, places, rest) =>
    let (exponent, rest') := readExponent (fun b => b == 101 || b == 69) rest
    let m := Numeral.value 10 digits
    some (ofScaled negative m 10 (exponent - places) (decimalSize m) 400, rest')

/-- A hexadecimal number in front of the text, after its `0x`. -/
def readHex (negative : Bool) (s : Bytes) : Option (Binary64 × Bytes) :=
  match readPointed 16 s with
  | ([], _, _) => none
  | (digits, places, rest) =>
    let (exponent, rest') := readExponent (fun b => b == 112 || b == 80) rest
    let m := Numeral.value 16 digits
    some (ofScaled negative m 2 (exponent - 4 * places) (m.log2 + 1) 1200, rest')

/-- The text after the given word, in any letter case. -/
def afterWord (word s : Bytes) : Option Bytes :=
  if Bytes.sameFolded (s.take word.length) word then some (s.drop word.length) else none

/-- The text after a bracketed run of letters, digits and underscores, or the
    whole text if it does not start with one. -/
def skipTag (s : Bytes) : Bytes :=
  match s with
  | 40 :: tail =>
    match tail.dropWhile fun b => b.isAlnum || b == 95 with
    | 41 :: rest => rest
    | _ => s
  | _ => s

/-- The number in front of the text, after white space and a sign, and the rest
    of the text; none if there is no number. -/
def read (s : Bytes) : Option (Binary64 × Bytes) :=
  let (negative, text) := Numeral.takeSign (s.dropWhile Byte.isSpace)
  match afterWord "infinity" text, afterWord "inf" text, afterWord "nan" text with
  | some rest, _, _ => some (infinity negative, rest)
  | none, some rest, _ => some (infinity negative, rest)
  | none, none, some rest => some (nan negative, skipTag rest)
  | none, none, none =>
    match afterWord "0x" text with
    | some hex => (readHex negative hex).or (readDecimal negative text)
    | none => readDecimal negative text

/-! ### Writing -/

/-- The minus of a negative number. -/
def signText (negative : Bool) : Bytes := if negative then [Byte.minus] else []

/-- A whole number of units of the `places`-th decimal, as a decimal number. -/
def pointed (places units : Nat) : Bytes :=
  let whole := Numeral.ofNat (units / Nat.pow 10 places)
  if places = 0 then whole
  else
    let part := Numeral.ofNat (units % Nat.pow 10 places)
    whole ++ [Byte.dot] ++ List.replicate (places - part.length) 48 ++ part

/-- The number with the given number of decimals. -/
def fixed (places : Nat) (x : Binary64) : Bytes :=
  match x.decode with
  | .nan s => signText s ++ "nan"
  | .infinite s => signText s ++ "inf"
  | .finite s m e =>
    let (a, b) := ratioOf m e
    signText s ++ pointed places (roundRatio (a * Nat.pow 10 places) b)

/-- The power of ten of the first digit of a quotient above zero. -/
def leadingPower (num den : Nat) : Int :=
  let guess : Int := (decimalSize num : Int) - decimalSize den
  let reached :=
    if guess < 0 then den ≤ num * Nat.pow 10 guess.natAbs
    else den * Nat.pow 10 guess.natAbs ≤ num
  if reached then guess else guess - 1

/-- A quotient above zero rounded to six significant digits, as a number of six
    digits and the power of ten of the first of them. -/
def sixDigits (num den : Nat) : Nat × Int :=
  let power := leadingPower num den
  let shift := 5 - power
  let n :=
    if shift < 0 then roundRatio num (den * Nat.pow 10 shift.natAbs)
    else roundRatio (num * Nat.pow 10 shift.natAbs) den
  if n = 1000000 then (100000, power + 1) else (n, power)

/-- A decimal text without the zeros that end its fraction, nor a point that
    ends it. -/
def dropZeros (s : Bytes) : Bytes :=
  if Byte.dot ∈ s then
    let cut := s.reverse.dropWhile (· == 48)
    (match cut with
      | 46 :: rest => rest
      | _ => cut).reverse
  else s

/-- The exponent of a number in scientific notation: a sign and two digits or
    more. -/
def exponentText (power : Int) : Bytes :=
  let digits := Numeral.ofNat power.natAbs
  ascii "e" ++ [if power < 0 then Byte.minus else Byte.plus] ++
    List.replicate (2 - digits.length) 48 ++ digits

/-- The number with six significant digits, in scientific notation if its first
    digit stands below the fourth decimal or six places above the point. -/
def general (x : Binary64) : Bytes :=
  match x.decode with
  | .nan s => signText s ++ "nan"
  | .infinite s => signText s ++ "inf"
  | .finite s m e =>
    if m = 0 then signText s ++ "0"
    else
      let (a, b) := ratioOf m e
      let (n, power) := sixDigits a b
      signText s ++
        if power < -4 ∨ 6 ≤ power then dropZeros (pointed 5 n) ++ exponentText power
        else if power < 0 then
          dropZeros (pointed (5 + power.natAbs) n)
        else dropZeros (pointed (5 - power.natAbs) n)

end PageServer.Binary64
