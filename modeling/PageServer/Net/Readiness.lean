import PageServer.Bytes

/-!
# Readiness

What a descriptor is ready for is a set of conditions, kept as the bits of a
number.
-/

namespace PageServer.Net

/-- A condition of a descriptor. -/
inductive Readiness
  | readable
  | urgent
  | writable
  | hungUp
  | peerHungUp
  | failed
  deriving DecidableEq, Repr

namespace Readiness

/-- The bit of a condition. -/
def bit : Readiness → UInt32
  | readable => 0x001
  | urgent => 0x002
  | writable => 0x004
  | failed => 0x008
  | hungUp => 0x010
  | peerHungUp => 0x2000

/-- The name of a condition. -/
def name : Readiness → Bytes
  | readable => "IN"
  | urgent => "PRI"
  | writable => "OUT"
  | hungUp => "HUP"
  | peerHungUp => "RDHUP"
  | failed => "ERR"

/-- All conditions, in the order in which they are listed. -/
def all : List Readiness := [readable, urgent, writable, hungUp, peerHungUp, failed]

/-- Whether a set holds a condition. -/
def isIn (r : Readiness) (mask : UInt32) : Bool := mask &&& r.bit != 0

/-- The conditions of a set; bits without a meaning do not count. -/
def ofMask (mask : UInt32) : List Readiness := all.filter (·.isIn mask)

/-- The conditions of a set in words. -/
def text (mask : UInt32) : Bytes :=
  match ofMask mask with
  | [] => "NONE"
  | conditions => Bytes.join "|" (conditions.map name)

end Readiness

end PageServer.Net
