import PageServer.Binary64.Text
import PageServer.Log
import PageServer.Table

/-!
# Settings

Settings come from an INI text: `[section]` lines, `key = value` lines, and
comments after `#` or `;`. A key before the first section belongs to the
section `global`. A later value of a key replaces an earlier one, and a line
that is neither of these is reported and ignored.

A value is read as the type it is asked for. A missing or empty value stands
for the default; one that is not of the type is reported and stands for the
default too.

* `Settings.ofText`: the settings of a text;
* `Settings.load`: the settings of a file, which replace all earlier ones;
* `Settings.int64`, `Settings.int`, `Settings.double`, `Settings.bool`: a value
  of the type, or the default.
-/

namespace PageServer

/-- The keys of a section with their values. -/
abbrev Section := Table (compare : Bytes → Bytes → Ordering) Bytes

/-- Sections by name. -/
abbrev Sections := Table (compare : Bytes → Bytes → Ordering) Section

/-- All settings, and the file they were last loaded from, if any. -/
structure Settings where
  sections : Sections := .empty
  file : Option Bytes := none

namespace Settings

/-- What a line of a settings text is, once the white space around it is gone. -/
inductive Line
  /-- An empty line or a comment. -/
  | nothing
  | header (name : Bytes)
  | entry (key value : Bytes)
  | unknown
  deriving DecidableEq, Repr

/-- The blanks that may stand around names and values. -/
def isBlank (b : Byte) : Bool := b == 32 || b == 9 || b == 13 || b == 10

/-- The text without the blanks around it. -/
def strip (s : Bytes) : Bytes := Bytes.trimBy isBlank s

/-- Reads a line that has no blanks around it. -/
def Line.read (line : Bytes) : Line :=
  match line with
  | [] => .nothing
  | first :: rest =>
    if first == 35 || first == 59 then .nothing
    else if first == 91 && line.getLast? == some 93 then .header (strip rest.dropLast)
    else
      match line.break1 Byte.equals with
      | (_, none) => .unknown
      | (key, some value) =>
        if (strip key).isEmpty then .unknown else .entry (strip key) (strip value)

/-- The settings of the lines read so far, and the section of the next line. -/
structure Reading where
  sections : Sections := .empty
  name : Bytes := "global"

/-- The sections with a value put at a key. -/
def putIn (sections : Sections) (name key value : Bytes) : Sections :=
  sections.insert name (((sections.get? name).getD .empty).insert key value)

/-- Takes in one more line, the `number`-th of its text. -/
def Reading.step (r : Reading) (number : Nat) (raw : Bytes) : Reported Reading :=
  let line := strip raw
  match Line.read line with
  | .nothing => pure r
  | .header name => pure { r with name }
  | .entry key value => pure { r with sections := putIn r.sections r.name key value }
  | .unknown => do
    Reported.record .warn ("Config: ignoring line " ++ Numeral.ofNat number ++ " '" ++ line ++ "'")
    return r

/-- Takes in the lines of a text, the first of them being the `number`-th. -/
def Reading.lines (r : Reading) (number : Nat) : List Bytes → Reported Reading
  | [] => pure r
  | line :: rest => do
    let r' ← r.step number line
    r'.lines (number + 1) rest

/-- The sections of a settings text. -/
def ofText (text : Bytes) : Reported Sections := do
  let r ← Reading.lines {} 1 (text.splitOn Byte.lineFeed)
  return r.sections

/-- The settings with those of a text in the place of all sections. -/
def loadText (s : Settings) (text : Bytes) : Reported Settings := do
  return { s with sections := ← ofText text }

/-- The settings after a file was loaded, and whether it was: one that cannot
    be opened, without a text, leaves everything as it was. -/
def load (s : Settings) (path : Bytes) (text : Option Bytes) : Reported (Bool × Settings) := do
  match text with
  | none =>
    Reported.record .error ("Config: cannot open " ++ path)
    return (false, s)
  | some text =>
    let sections ← ofText text
    Reported.record .info ("Config: loaded " ++ path ++ " (" ++ Numeral.ofNat sections.size ++ " sections)")
    return (true, ⟨sections, if path.isEmpty then none else some path⟩)

/-- The settings with a value put at a key. -/
def set (s : Settings) (name key value : Bytes) : Settings :=
  { s with sections := putIn s.sections name key value }

/-! ### Values -/

/-- The text at a key. -/
def get? (s : Settings) (name key : Bytes) : Option Bytes := do
  (← s.sections.get? name).get? key

/-- Whether there is a value at a key. -/
def has (s : Settings) (name key : Bytes) : Bool := (s.get? name key).isSome

/-- The text at a key, or the default. -/
def string (s : Settings) (name key default : Bytes) : Bytes := (s.get? name key).getD default

/-- The value of a text that is there and not empty, read by `read`; else the
    default, which is reported with `kind` and `shown` if there was a text that
    `read` refuses. -/
def typed {α : Type} (s : Settings) (name key : Bytes) (default : α) (read : Bytes → Option α)
    (kind shown : Bytes) : Reported α :=
  match s.get? name key with
  | none => pure default
  | some [] => pure default
  | some text =>
    match read text with
    | some v => pure v
    | none => do
      Reported.record .warn
        ("Config: [" ++ name ++ "] " ++ key ++ "=" ++ text ++ " is not " ++ kind ++ ", using " ++ shown)
      return default

/-- The signed number that a zero-terminated text holds; a text whose first
    byte ends it holds zero. -/
def readInt64 (text : Bytes) : Option Int :=
  match text.toNul with
  | [] => some 0
  | s =>
    match Numeral.readSigned s with
    | some (n, []) => if Numeral.fitsInt64 n then some n else none
    | _ => none

/-- The floating point number that a zero-terminated text holds; a text whose
    first byte ends it holds zero. -/
def readDouble (text : Bytes) : Option Binary64 :=
  match text.toNul with
  | [] => some (.zero false)
  | s =>
    match Binary64.read s with
    | some (x, []) => some x
    | _ => none

/-- The truth value that a text names, in any letter case. -/
def readBool (text : Bytes) : Option Bool :=
  let word := text.lower
  if word = "1" ∨ word = "true" ∨ word = "yes" ∨ word = "on" then some true
  else if word = "0" ∨ word = "false" ∨ word = "no" ∨ word = "off" then some false
  else none

/-- The integer of sixty-four bits at a key. -/
def int64 (s : Settings) (name key : Bytes) (default : Int) : Reported Int :=
  s.typed name key default readInt64 "an integer" (Numeral.ofInt default)

/-- The integer of thirty-two bits at a key. -/
def int (s : Settings) (name key : Bytes) (default : Int) : Reported Int := do
  let n ← s.int64 name key default
  if -0x80000000 ≤ n ∧ n < 0x80000000 then return n
  else
    Reported.record .warn
      ("Config: [" ++ name ++ "] " ++ key ++ " out of int range, using " ++ Numeral.ofInt default)
    return default

/-- The floating point number at a key. -/
def double (s : Settings) (name key : Bytes) (default : Binary64) : Reported Binary64 :=
  s.typed name key default readDouble "a number" default.general

/-- The truth value at a key. -/
def bool (s : Settings) (name key : Bytes) (default : Bool) : Reported Bool :=
  s.typed name key default readBool "a boolean" (if default then "true" else "false")

end Settings

end PageServer
