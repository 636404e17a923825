import PageServer.Binary64.Text
import PageServer.Json
import PageServer.Table

/-!
# Metrics

The registry holds counters, which are added to, and gauges, which are read.
A counter is an integer of sixty-four bits and wraps around. A gauge reads its
number when it is asked: a constant, a counter, the quotient of two counters,
or how many connections a server has open. A gauge that is registered under a
name already taken is not registered.

The whole registry is written as one JSON document (`Metrics.document`), gauges
with six decimals.
-/

namespace PageServer

/-- Where a gauge has its number from. -/
inductive Gauge
  | constant (x : Binary64)
  /-- The count of a counter. -/
  | counter (name : Bytes)
  /-- The quotient of two counts, and zero while the second is zero. -/
  | quotient (part whole : Bytes)
  /-- How many connections a server has open. -/
  | connections (server : Nat)
  deriving DecidableEq, Repr

/-- A registry of counters and gauges. -/
structure Metrics where
  counters : Table (compare : Bytes → Bytes → Ordering) Int := .empty
  gauges : Table (compare : Bytes → Bytes → Ordering) Gauge := .empty
  /-- How many connections each server has open. -/
  connections : Table (compare : Nat → Nat → Ordering) Nat := .empty

namespace Metrics

/-- The count of a counter, zero before it is first used. -/
def count (m : Metrics) (name : Bytes) : Int := (m.counters.get? name).getD 0

/-- The registry with the counter in it. -/
def touch (m : Metrics) (name : Bytes) : Metrics :=
  { m with counters := m.counters.insertIfNew name 0 }

/-- The registry with `n` added to a counter. -/
def add (m : Metrics) (name : Bytes) (n : Int) : Metrics :=
  { m with counters := m.counters.insert name (wrapInt64 (m.count name + n)) }

/-- The registry with a counter at zero. -/
def reset (m : Metrics) (name : Bytes) : Metrics :=
  { m with counters := m.counters.insert name 0 }

/-- The registry with every counter at zero. -/
def resetAll (m : Metrics) : Metrics := { m with counters := m.counters.map fun _ => 0 }

/-- Whether a gauge could be registered, and the registry after it. -/
def registerGauge (m : Metrics) (name : Bytes) (gauge : Gauge) : Bool × Metrics :=
  if m.gauges.contains name then (false, m)
  else (true, { m with gauges := m.gauges.insert name gauge })

/-- The registry without a gauge. -/
def removeGauge (m : Metrics) (name : Bytes) : Metrics :=
  { m with gauges := m.gauges.erase name }

/-- How many connections a server has open. -/
def openConnections (m : Metrics) (server : Nat) : Nat := (m.connections.get? server).getD 0

/-- The registry while a server has so many connections open. -/
def setConnections (m : Metrics) (server count : Nat) : Metrics :=
  { m with connections := m.connections.insert server count }

/-- The number that a gauge reads. -/
def read (m : Metrics) : Gauge → Binary64
  | .constant x => x
  | .counter name => .ofInt (m.count name)
  | .quotient part whole =>
    if m.count whole = 0 then .zero false
    else Binary64.div (.ofInt (m.count part)) (.ofInt (m.count whole))
  | .connections server => .ofInt (m.openConnections server)

/-- The number of a gauge by name. -/
def gaugeValue (m : Metrics) (name : Bytes) : Option Binary64 := (m.gauges.get? name).map m.read

/-- Members of a JSON object on lines of their own. -/
def members (lines : List (Bytes × Bytes)) : Bytes :=
  match lines with
  | [] => "\x7b\x7d"
  | _ =>
    "\x7b\n" ++ Bytes.join ",\n" (lines.map fun l => "    " ++ Json.string l.1 ++ ": " ++ l.2) ++ "\n  \x7d"

/-- The registry as a JSON document. -/
def document (m : Metrics) (uptimeSeconds : Nat) : Bytes :=
  "\x7b\n  \"uptime_sec\": " ++ Numeral.ofNat uptimeSeconds ++ ",\n  \"counters\": " ++
    members (m.counters.entries.map fun e => (e.1, Numeral.ofInt e.2)) ++ ",\n  \"gauges\": " ++
    members (m.gauges.entries.map fun e => (e.1, (m.read e.2).fixed 6)) ++ "\n\x7d"

end Metrics

end PageServer
