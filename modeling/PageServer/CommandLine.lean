import PageServer.Server.Installation

/-!
# The command line

`-c FILE` names the settings file, `-C` has it only checked, and `-h` asks for
help, which is also given for an option that there is not. Letters can stand
together, as in `-Cc FILE`; arguments that are no options do not count, and
after `--` there are no more options.

* `CommandLine.read`: what arguments ask for;
* `CommandLine.run`: does it, up to the point where a server serves.
-/

namespace PageServer.CommandLine

/-- What arguments ask for. -/
inductive Request
  | help
  | run (file : Bytes) (checkOnly : Bool)
  deriving DecidableEq, Repr

/-- The options read so far. -/
structure Options where
  file : Bytes := "../config/worker.conf"
  checkOnly : Bool := false
  deriving DecidableEq, Repr

/-- What the letters of an argument come to. -/
inductive Letters
  | read (o : Options)
  /-- The next argument is the settings file. -/
  | fileNext (o : Options)
  | help
  deriving DecidableEq, Repr

/-- Reads the letters of an argument. What follows `c` is the settings file. -/
def readLetters (o : Options) : Bytes → Letters
  | [] => .read o
  | letter :: rest =>
    if letter == 67 then readLetters { o with checkOnly := true } rest
    else if letter == 99 then
      match rest with
      | [] => .fileNext o
      | file => .read { o with file }
    else .help

/-- The letters of an argument that is an option. -/
def letters? (argument : Bytes) : Option Bytes :=
  match argument with
  | first :: second :: rest => if first == Byte.minus then some (second :: rest) else none
  | _ => none

/-- Reads arguments one after the other. -/
def readFrom (o : Options) : List Bytes → Request
  | [] => .run o.file o.checkOnly
  | argument :: rest =>
    if argument == "--" then .run o.file o.checkOnly
    else
      match letters? argument with
      | none => readFrom o rest
      | some letters =>
        match readLetters o letters with
        | .help => .help
        | .read o => readFrom o rest
        | .fileNext o =>
          match rest with
          | [] => .help
          | file :: rest => readFrom { o with file } rest

/-- What arguments ask for. -/
def read (arguments : List Bytes) : Request := readFrom {} arguments

/-- The help text, for a program of the given name. -/
def helpText (program : Bytes) : Bytes :=
  "Usage: " ++ program ++ " [-c config_file] [-C]\n  -C  check config and exit\n"

/-- How a run goes on or ends. -/
inductive Ending
  /-- It is over, with an exit code and what was printed. -/
  | exit (code : Nat) (printed : Bytes)
  | serving (running : Installation.Running)

/-- The text of a file on the disk. A directory can be opened, and holds no
    text. -/
def textOf (d : Disk) (path : Bytes) : Option Bytes :=
  match d.status path with
  | .ok (.file content _) => some content
  | .ok _ => some []
  | .error _ => none

/-- Loads the settings file; without one the defaults stand. -/
def loadSettings (file : Bytes) : Act Installation Settings := do
  let text := textOf (← Act.get).disk file
  let (loaded, settings) ← Act.report (Settings.load {} file text)
  if !loaded then Act.record .error ("Failed to load config " ++ file ++ ", using defaults.")
  return settings

/-- Starts the server that settings ask for. -/
def start (machine : Net.Machine) (s : Settings) : Act Installation Ending :=
  Act.recover (do return .serving (← Installation.launch machine s)) fun e => do
    Act.record .fatal ("cacheworker failed to start: " ++ e.message)
    return .exit 1 []

/-- Checks the settings and tells the problem. -/
def tellProblem (problem : Option SettingsProblem) : Ending :=
  match problem with
  | none => .exit 0 "OK\n"
  | some p => .exit 1 ("INVALID: " ++ p.message ++ "\n")

/-- The action with only the records of a level kept. -/
def keeping {σ α : Type} (level : Log.Level) (a : Act σ α) : Act σ α := fun s =>
  let o := a s
  { o with log := Log.kept level o.log }

/-- Loads and checks settings: either the run ends here, or the server is to be
    started with them. -/
def prepare (file : Bytes) (checkOnly : Bool) : Act Installation (Ending ⊕ Settings) := do
  let settings ← loadSettings file
  let problem ← Act.report settings.check
  if checkOnly then return .inl (tellProblem problem)
  match problem with
  | some p =>
    Act.record .error ("Invalid config: " ++ p.message)
    return .inl (.exit 1 [])
  | none => return .inr settings

/-- Does what arguments ask for. The log keeps records from `INFO` on until the
    settings say otherwise. -/
def run (machine : Net.Machine) (program : Bytes) (arguments : List Bytes) :
    Act Installation Ending := do
  match read arguments with
  | .help => return .exit 0 (helpText program)
  | .run file checkOnly =>
    match ← keeping .info (prepare file checkOnly) with
    | .inl ending => return ending
    | .inr settings => keeping settings.logLevel (start machine settings)

end PageServer.CommandLine
