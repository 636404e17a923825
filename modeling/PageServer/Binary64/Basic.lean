import PageServer.Numeral

/-!
# Binary floating point numbers

A double is its sixty-four bits. A finite one stands for a mantissa times a
power of two (`Binary64.decode`), so that rounding, division and printing are
done on natural numbers.

* `roundRatio`: a quotient to the nearest whole number, ties to even;
* `Binary64.ofRatio`: a quotient to the nearest double, ties to even, with
  gradual underflow and with infinity above the range;
* `Binary64.div`: the quotient of two doubles.
-/

namespace PageServer

/-- The quotient rounded to the nearest whole number, a half to the even
    neighbour. -/
def roundRatio (num den : Nat) : Nat :=
  let q := num / den
  let twice := 2 * (num % den)
  if den < twice ∨ (twice = den ∧ q % 2 = 1) then q + 1 else q

/-- A double precision number, as its bits. -/
structure Binary64 where
  bits : UInt64
  deriving DecidableEq, Repr

namespace Binary64

/-- What the bits stand for. -/
inductive Value
  | nan (negative : Bool)
  | infinite (negative : Bool)
  /-- The mantissa times two to the exponent. -/
  | finite (negative : Bool) (mantissa : Nat) (exponent : Int)
  deriving DecidableEq, Repr

/-- The sign, in its place. -/
def signBit : Nat := 0x8000000000000000

/-- One in the exponent field, in its place: what the fraction field counts up
    to, and the first bit of a normal mantissa. -/
def unitBit : Nat := 0x10000000000000

/-- The bits with the given sign, exponent and fraction fields. -/
def ofFields (negative : Bool) (magnitude : Nat) : Binary64 :=
  ⟨UInt64.ofNat ((if negative then signBit else 0) + magnitude)⟩

/-- The exponent field of infinities and NaNs, in its place. -/
def topField : Nat := 0x7ff * unitBit

def infinity (negative : Bool) : Binary64 := ofFields negative topField

def nan (negative : Bool) : Binary64 := ofFields negative (topField + unitBit / 2)

def zero (negative : Bool) : Binary64 := ofFields negative 0

/-- What the bits of a double stand for. -/
def decode (x : Binary64) : Value :=
  let n := x.bits.toNat
  let negative := decide (signBit ≤ n)
  let exponent : Nat := n / unitBit % 0x800
  let fraction := n % unitBit
  if exponent = 0x7ff then
    if fraction = 0 then .infinite negative else .nan negative
  else if exponent = 0 then .finite negative fraction (-1074)
  else .finite negative (unitBit + fraction) ((exponent : Int) - 1075)

/-- `num / den * 2 ^ (-e)` as a quotient. -/
def shiftRatio (num den : Nat) (e : Int) : Nat × Nat :=
  if e < 0 then (num <<< e.natAbs, den) else (num, den <<< e.natAbs)

/-- The exponent of the last place of the double nearest to a quotient: the
    mantissa then has fifty-three bits, fewer only at the least exponent. -/
def placeOf (num den : Nat) : Int :=
  let guess : Int := (num.log2 : Int) - den.log2 - 52
  let (n, d) := shiftRatio num den guess
  max (-1074) (if n < d * unitBit then guess - 1 else guess)

/-- A quotient in units of its last place. -/
def scaled (num den : Nat) : Nat × Nat := shiftRatio num den (placeOf num den)

/-- The bits, without the sign, of the double nearest to a quotient, ties to even; more of
    them than there are where that is out of range. -/
def magnitude (num den : Nat) : Nat :=
  if num = 0 then 0
  else (placeOf num den + 1074).toNat * unitBit + roundRatio (scaled num den).1 (scaled num den).2

/-- The double nearest to a quotient, ties to even; infinity where that is out
    of range. -/
def ofRatio (negative : Bool) (num den : Nat) : Binary64 :=
  if magnitude num den < topField then ofFields negative (magnitude num den)
  else infinity negative

/-- The double nearest to an integer. -/
def ofInt (n : Int) : Binary64 := ofRatio (decide (n < 0)) n.natAbs 1

/-- A mantissa times a power of two as a quotient of natural numbers. -/
def ratioOf (mantissa : Nat) (exponent : Int) : Nat × Nat :=
  if exponent < 0 then (mantissa, 1 <<< exponent.natAbs) else (mantissa <<< exponent.natAbs, 1)

/-- The quotient of two doubles. -/
def div (x y : Binary64) : Binary64 :=
  match x.decode, y.decode with
  | .nan s, _ => nan s
  | _, .nan s => nan s
  | .infinite _, .infinite _ => nan true
  | .infinite s, .finite t _ _ => infinity (s != t)
  | .finite s _ _, .infinite t => zero (s != t)
  | .finite s m e, .finite t n f =>
    if n = 0 then if m = 0 then nan true else infinity (s != t)
    else
      let x := ratioOf m e
      let y := ratioOf n f
      ofRatio (s != t) (x.1 * y.2) (x.2 * y.1)

end Binary64

end PageServer
