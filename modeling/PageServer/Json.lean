import PageServer.Numeral

/-!
# JSON strings

The server writes its JSON answers by hand, so all it needs of the format is
the string: quotes around the bytes, with quote, backslash and the bytes below
`0x20` escaped (`Json.escape`). All other bytes stand for themselves, also
those that are no valid UTF-8.
-/

namespace PageServer.Json

/-- A byte as it stands in a JSON string. -/
def escapeByte (b : Byte) : Bytes :=
  if b == Byte.backslash then "\\\\"
  else if b == Byte.quote then "\\\""
  else if b == 10 then "\\n"
  else if b == 13 then "\\r"
  else if b == 9 then "\\t"
  else if b < 0x20 then "\\u00" ++ Numeral.hexDigits 2 b.toNat
  else [b]

/-- The inside of a JSON string. -/
def escape (s : Bytes) : Bytes := s.flatMap escapeByte

/-- A JSON string, quotes included. -/
def string (s : Bytes) : Bytes := Byte.quote :: escape s ++ [Byte.quote]

/-- A truth value. -/
def bool (b : Bool) : Bytes := if b then "true" else "false"

/-- An array of values already written. -/
def array (values : List Bytes) : Bytes := "[" ++ Bytes.join "," values ++ "]"

/-- An object of members whose values are already written. -/
def object (members : List (Bytes × Bytes)) : Bytes :=
  "\x7b" ++ Bytes.join "," (members.map fun m => string m.1 ++ ":" ++ m.2) ++ "\x7d"

end PageServer.Json
