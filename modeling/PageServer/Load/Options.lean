import PageServer.Http.Target

/-!
# Load options

A load request submits a load, stops it or asks how far it is. Its options come
from the parameters of the target; absent ones keep their defaults.

* `LoadOptions.ofTarget`: the options that a target asks for;
* `LoadOptions.text`: the options in the log.
-/

namespace PageServer

/-- What is asked of the loads of a path. -/
inductive LoadOperation
  | submit
  | stop
  | progress
  deriving DecidableEq, Repr

namespace LoadOperation

def name : LoadOperation → Bytes
  | submit => "SUBMIT"
  | stop => "STOP"
  | progress => "PROGRESS"

/-- The operation with the given name in any letter case. -/
def ofName? (name : Bytes) : Option LoadOperation :=
  [submit, stop, progress].find? (·.name = name.upper)

end LoadOperation

/-- How a load is done and reported. -/
structure LoadOptions where
  operation : Option LoadOperation := none
  /-- Load the files of a directory as soon as it was listed. -/
  partialListing : Bool := false
  /-- Compare what was loaded with the length of the file. -/
  verify : Bool := false
  /-- How many bytes to load in a second. -/
  bandwidth : Option Int := none
  /-- Report failures one by one. -/
  verbose : Bool := false
  /-- Do not load any bytes. -/
  metadataOnly : Bool := false
  /-- Leave out files whose first page is there. -/
  skipExisting : Bool := false
  /-- Load only files whose path matches the pattern. -/
  filter : Option Bytes := none
  progressFormat : Bytes := "TEXT"
  deriving DecidableEq, Repr

namespace LoadOptions

/-- Why parameters are no load options. -/
inductive Fault
  | unknownOperation (name : Bytes)
  | badNumber (fault : Http.Target.Fault)
  | noBandwidth
  | unknownFormat (name : Bytes)
  deriving DecidableEq, Repr

/-- The fault in words. -/
def Fault.message : Fault → Bytes
  | unknownOperation name => "Unknown opType '" ++ name ++ "'"
  | badNumber fault => fault.message
  | noBandwidth => "bandwidth must be positive"
  | unknownFormat name => "Unknown progressFormat '" ++ name ++ "'"

/-- The fault as the failure of a request. -/
def Fault.error (f : Fault) : HttpError := .malformed f.message

/-- The operation that a target asks for. -/
def operationOf (t : Http.Target) : Except Fault (Option LoadOperation) :=
  match t.get? "opType" with
  | none => .ok none
  | some name =>
    match LoadOperation.ofName? name with
    | some op => .ok (some op)
    | none => .error (.unknownOperation name)

/-- The bandwidth that a target asks for. -/
def bandwidthOf (t : Http.Target) : Except Fault (Option Int) :=
  match t.number? "bandwidth" with
  | .error fault => .error (.badNumber fault)
  | .ok none => .ok none
  | .ok (some n) => if n ≤ 0 then .error .noBandwidth else .ok (some n)

/-- Whether a name is that of a progress format, in any letter case. -/
def isFormat (name : Bytes) : Bool := name.sameFolded "TEXT" || name.sameFolded "JSON"

/-- The progress format that a target asks for. -/
def formatOf (t : Http.Target) (default : Bytes) : Except Fault Bytes :=
  match t.get? "progressFormat" with
  | none => .ok default
  | some name => if isFormat name then .ok name else .error (.unknownFormat name)

/-- The options that a target asks for. -/
def ofTarget (t : Http.Target) : Except Fault LoadOptions := do
  let default : LoadOptions := {}
  let operation ← operationOf t
  let bandwidth ← bandwidthOf t
  let progressFormat ← formatOf t default.progressFormat
  return {
    operation, bandwidth, progressFormat
    partialListing := (t.flag? "partialListing").getD default.partialListing
    verify := (t.flag? "verify").getD default.verify
    verbose := (t.flag? "verbose").getD default.verbose
    metadataOnly := (t.flag? "loadMetadataOnly").getD default.metadataOnly
    skipExisting := (t.flag? "skipIfExists").getD default.skipExisting
    filter := t.get? "fileFilterRegx" }

/-- A flag in the log. -/
def flagText (b : Bool) : Bytes := if b then "1" else "0"

/-- The options in the log. -/
def text (o : LoadOptions) : Bytes :=
  "LoadOptions\x7bopType=" ++ (match o.operation with
      | some op => op.name
      | none => "unset") ++
    ", partialListing=" ++ flagText o.partialListing ++
    ", verify=" ++ flagText o.verify ++
    ", bandwidth=" ++ (match o.bandwidth with
      | some n => Numeral.ofInt n
      | none => "unlimited") ++
    ", verbose=" ++ flagText o.verbose ++
    ", loadMetadataOnly=" ++ flagText o.metadataOnly ++
    ", skipIfExists=" ++ flagText o.skipExisting ++
    ", fileFilterPattern=" ++ o.filter.getD [] ++
    ", progressFormat=" ++ o.progressFormat ++ "\x7d"

end LoadOptions

end PageServer
