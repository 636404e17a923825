import PageServer.Binary64.Text
import PageServer.Json
import PageServer.Proofs.Numeral

/-!
# JSON texts

What a JSON text stands for (`Json.Value`), and which texts stand for it, by the rules of
the format (`Json.TextOf`, `Json.Document`). The rules are those for bytes: in a string every
byte from `0x20` up stands for itself, but for the quote and the backslash, whether it is part of
UTF-8 or not. Of a number its digits and their power of ten are kept.
-/

namespace PageServer.Json

/-- What a JSON text stands for. -/
inductive Value
  | null
  | bool (b : Bool)
  /-- Digits times a power of ten. -/
  | number (digits power : Int)
  | string (s : Bytes)
  | array (values : List Value)
  /-- The members in their order. -/
  | object (members : List (Bytes × Value))

/-! ### Strings -/

/-- A code unit in UTF-8. The two units of a pair are taken one by one. -/
def utf8 (unit : Nat) : Bytes :=
  if unit < 0x80 then [UInt8.ofNat unit]
  else if unit < 0x800 then [UInt8.ofNat (0xc0 + unit / 64), UInt8.ofNat (0x80 + unit % 64)]
  else [UInt8.ofNat (0xe0 + unit / 4096), UInt8.ofNat (0x80 + unit / 64 % 64),
    UInt8.ofNat (0x80 + unit % 64)]

/-- The escapes of one byte: what stands behind the backslash, and what it stands for. -/
def shortEscapes : List (Byte × Byte) :=
  [(Byte.quote, Byte.quote), (Byte.backslash, Byte.backslash), (Byte.slash, Byte.slash),
    (98, 8), (102, 12), (110, 10), (114, 13), (116, 9)]

/-- The first text, inside of quotes, stands for the second one. -/
inductive Chars : Bytes → Bytes → Prop
  | nil : Chars [] []
  | plain {b : Byte} {t s : Bytes} (hb : 0x20 ≤ b ∧ b ≠ Byte.quote ∧ b ≠ Byte.backslash)
      (h : Chars t s) : Chars (b :: t) (b :: s)
  | short {c b : Byte} {t s : Bytes} (hc : (c, b) ∈ shortEscapes) (h : Chars t s) :
      Chars (Byte.backslash :: c :: t) (b :: s)
  | unit {d₁ d₂ d₃ d₄ : Byte} {n : Nat} {t s : Bytes}
      (hn : Numeral.Denotes 16 [d₁, d₂, d₃, d₄] n) (h : Chars t s) :
      Chars (Byte.backslash :: 117 :: d₁ :: d₂ :: d₃ :: d₄ :: t) (utf8 n ++ s)

/-- A string with its quotes stands for the second text. -/
inductive StringText : Bytes → Bytes → Prop
  | quoted {t s : Bytes} (h : Chars t s) : StringText (Byte.quote :: (t ++ [Byte.quote])) s

/-! ### Numbers -/

/-- Digits, at least one. -/
def Digits (s : Bytes) : Prop := s ≠ [] ∧ ∀ b ∈ s, Numeral.isDigitOf 10 b

/-- Digits in front of a point: there is no zero in front of others. -/
def Whole (s : Bytes) : Prop := Digits s ∧ (s.head? = some 48 → s = [48])

/-- The digits behind a point, if there is one. -/
inductive Fraction : Bytes → Bytes → Prop
  | none : Fraction [] []
  | point {digits : Bytes} (h : Digits digits) : Fraction (Byte.dot :: digits) digits

/-- Whether a power of ten is told behind the byte. -/
def isExponentMark (b : Byte) : Bool := b == 101 || b == 69

/-- The power of ten that is told, if it is. -/
inductive Exponent : Bytes → Int → Prop
  | none : Exponent [] 0
  | told {mark : Byte} {s : Bytes} {n : Int} (hmark : isExponentMark mark)
      (h : Numeral.SignedDenotes s n) : Exponent (mark :: s) n

/-- A number with a sign. -/
def signed (negative : Bool) (n : Nat) : Int := if negative then -n else n

/-- The text is a number, which stands for digits times a power of ten. -/
inductive NumberText : Bytes → Int → Int → Prop
  | mk (negative : Bool) {whole fraction digits exponent : Bytes} {n : Int} (hwhole : Whole whole)
      (hfraction : Fraction fraction digits) (hexponent : Exponent exponent n) :
      NumberText (Binary64.signText negative ++ whole ++ fraction ++ exponent)
        (signed negative (Numeral.value 10 (whole ++ digits))) (n - digits.length)

/-! ### Values -/

abbrev comma : Byte := 44
abbrev openBracket : Byte := 91
abbrev closeBracket : Byte := 93
abbrev openBrace : Byte := 123
abbrev closeBrace : Byte := 125

/-- Whether the byte may stand around a value. -/
def isBlank (b : Byte) : Bool := b == 32 || b == 9 || b == 10 || b == 13

/-- There are only blanks in the text. -/
def Blank (s : Bytes) : Prop := ∀ b ∈ s, isBlank b

instance (s : Bytes) : Decidable (Blank s) :=
  decidable_of_iff (s.all isBlank = true) List.all_eq_true

/-- The parts that a JSON text is made of. -/
inductive Part
  | value (v : Value)
  /-- A value with blanks around it. -/
  | padded (v : Value)
  /-- Values between brackets, at least one. -/
  | values (vs : List Value)
  | member (m : Bytes × Value)
  /-- Members between braces, at least one. -/
  | members (ms : List (Bytes × Value))

/-- The text is that of the part. -/
inductive TextOf : Part → Bytes → Prop
  | null : TextOf (.value .null) "null"
  | true : TextOf (.value (.bool true)) "true"
  | false : TextOf (.value (.bool false)) "false"
  | number {t : Bytes} {digits power : Int} (h : NumberText t digits power) :
      TextOf (.value (.number digits power)) t
  | string {t s : Bytes} (h : StringText t s) : TextOf (.value (.string s)) t
  | emptyArray {t : Bytes} (h : Blank t) :
      TextOf (.value (.array [])) (openBracket :: (t ++ [closeBracket]))
  | array {t : Bytes} {vs : List Value} (h : TextOf (.values vs) t) :
      TextOf (.value (.array vs)) (openBracket :: (t ++ [closeBracket]))
  | emptyObject {t : Bytes} (h : Blank t) :
      TextOf (.value (.object [])) (openBrace :: (t ++ [closeBrace]))
  | object {t : Bytes} {ms : List (Bytes × Value)} (h : TextOf (.members ms) t) :
      TextOf (.value (.object ms)) (openBrace :: (t ++ [closeBrace]))
  | padded {front t back : Bytes} {v : Value} (hfront : Blank front) (h : TextOf (.value v) t)
      (hback : Blank back) : TextOf (.padded v) (front ++ t ++ back)
  | lastValue {t : Bytes} {v : Value} (h : TextOf (.padded v) t) : TextOf (.values [v]) t
  | moreValues {t ts : Bytes} {v : Value} {vs : List Value} (h : TextOf (.padded v) t)
      (hs : TextOf (.values vs) ts) : TextOf (.values (v :: vs)) (t ++ comma :: ts)
  | member {front key name back t : Bytes} {v : Value} (hfront : Blank front)
      (hkey : StringText key name) (hback : Blank back) (h : TextOf (.padded v) t) :
      TextOf (.member (name, v)) (front ++ key ++ back ++ Byte.colon :: t)
  | lastMember {t : Bytes} {m : Bytes × Value} (h : TextOf (.member m) t) :
      TextOf (.members [m]) t
  | moreMembers {t ts : Bytes} {m : Bytes × Value} {ms : List (Bytes × Value)}
      (h : TextOf (.member m) t) (hs : TextOf (.members ms) ts) :
      TextOf (.members (m :: ms)) (t ++ comma :: ts)

/-- The text is a JSON document, which stands for the value. -/
def Document (v : Value) (text : Bytes) : Prop := TextOf (.padded v) text

end PageServer.Json
