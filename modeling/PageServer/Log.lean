import PageServer.Numeral

/-!
# The log

A record has a level and a message. The log keeps the records of its level and
above. Written out (`Log.line`), a record is one line: the time, the level in
five columns, the thread, the source file without its directory, the line in
it, and the message.

A function that may have something to report returns its value together with
the records it made (`Reported`).
-/

namespace PageServer.Log

/-- How much a record matters, the least first. -/
inductive Level
  | debug
  | info
  | warn
  | error
  | fatal
  deriving DecidableEq, Repr

namespace Level

/-- The place of the level in their order. -/
def rank : Level → Nat
  | debug => 0
  | info => 1
  | warn => 2
  | error => 3
  | fatal => 4

/-- The name of the level. -/
def name : Level → Bytes
  | debug => "DEBUG"
  | info => "INFO"
  | warn => "WARN"
  | error => "ERROR"
  | fatal => "FATAL"

/-- The name of the level, filled up with blanks to five columns. -/
def column (level : Level) : Bytes :=
  level.name ++ List.replicate (5 - level.name.length) Byte.blank

/-- Whether a log of level `threshold` keeps records of this level. -/
def passes (level threshold : Level) : Bool := threshold.rank ≤ level.rank

/-- The level with the given name in any letter case; an unknown name stands
    for the fallback. -/
def ofName (name : Bytes) (fallback : Level) : Level :=
  let capitals := name.upper
  if capitals = "DEBUG" then debug
  else if capitals = "INFO" then info
  else if capitals = "WARN" ∨ capitals = "WARNING" then warn
  else if capitals = "ERROR" then error
  else if capitals = "FATAL" then fatal
  else fallback

end Level

/-- One record. -/
structure Record where
  level : Level
  message : Bytes
  deriving DecidableEq, Repr

/-- The records that a log of the given level keeps. -/
def kept (threshold : Level) (records : List Record) : List Record :=
  records.filter (·.level.passes threshold)

/-- Where in the program a record was made. -/
structure Place where
  file : Bytes
  line : Int

/-- A record as a line of the log, with the texts of its time and thread. -/
def line (time thread : Bytes) (place : Place) (record : Record) : Bytes :=
  time ++ " " ++ record.level.column ++ " [" ++ thread ++ "] " ++ place.file.baseName ++ ":" ++
    Numeral.ofInt place.line ++ " " ++ record.message ++ "\n"

end PageServer.Log

namespace PageServer

/-- A value, with the log records made on the way to it. -/
structure Reported (α : Type) where
  value : α
  log : List Log.Record := []

namespace Reported

instance : Monad Reported where
  pure a := ⟨a, []⟩
  bind r f :=
    let next := f r.value
    ⟨next.value, r.log ++ next.log⟩

/-- Makes one record. -/
def record (level : Log.Level) (message : Bytes) : Reported Unit := ⟨(), [⟨level, message⟩]⟩

end Reported

end PageServer
