import PageServer.Numeral

/-!
# Addresses

An address is an IPv4 address and a port. The text form of the former is four
decimal numbers below 256 with dots between them, none with a leading zero. A
machine may refuse to let a server listen at an address, for reasons of its own
(`Machine`).
-/

namespace PageServer.Net

/-- An IPv4 address and a port. -/
structure Address where
  a : UInt8 := 0
  b : UInt8 := 0
  c : UInt8 := 0
  d : UInt8 := 0
  port : UInt16 := 0
  deriving DecidableEq, Repr

namespace Address

/-- The number below 256 that fills a text, without leading zeros. -/
def readOctet (text : Bytes) : Option UInt8 :=
  match text with
  | [] => none
  | first :: rest =>
    if !text.all Byte.isDigit || (first == 48 && !rest.isEmpty) then none
    else
      let n := Numeral.value 10 text
      if n < 256 then some (UInt8.ofNat n) else none

/-- The address that a zero-terminated text and a port stand for. -/
def read (text : Bytes) (port : UInt16) : Option Address :=
  match text.toNul.splitOn Byte.dot with
  | [a, b, c, d] => do
    return { a := ← readOctet a, b := ← readOctet b, c := ← readOctet c, d := ← readOctet d, port }
  | _ => none

/-- The text of the address without the port. -/
def ip (x : Address) : Bytes :=
  Bytes.join [Byte.dot] ([x.a, x.b, x.c, x.d].map fun n => Numeral.ofNat n.toNat)

/-- The text of the address and its port. -/
def text (x : Address) : Bytes := x.ip ++ [Byte.colon] ++ Numeral.ofNat x.port.toNat

/-- What is said of a text that is no address. -/
def refusal (text : Bytes) : Bytes := "not an IPv4 address: '" ++ text ++ "'"

end Address

/-- The machine that servers are on. -/
structure Machine where
  /-- Why no server can listen at an address; nothing if one can. -/
  refuses : Address → Option Bytes

/-- Whether an address stands for all of a machine's own, or leads back to it or
    to a group. -/
def Address.isOwn (x : Address) : Bool :=
  x.a == 0 || x.a == 127 || (224 ≤ x.a && x.a ≤ 239) ||
    (x.a == 255 && x.b == 255 && x.c == 255 && x.d == 255)

/-- A machine without a network, on which every port can be had. -/
def Machine.alone : Machine where
  refuses x := if x.isOwn then none else some "Cannot assign requested address"

end PageServer.Net
