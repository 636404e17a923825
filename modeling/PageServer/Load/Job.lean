import PageServer.Fingerprint
import PageServer.Load.Options
import PageServer.Load.Program
import PageServer.Regex.Search

/-!
# Load jobs

A job copies the files below a path into the page store. The pages of a file go
under an id that is the fingerprint of the place the file is kept at. A path
that is a file loads this file.

A directory is walked in rounds, one directory a round, the directories that
were found first coming first (`Walk`). Files are loaded round by round, or all
together after the last round.

* `Job.begin`, `Job.round`: the programs of a job;
* `Job.report`: what a client is told of the job.
-/

namespace PageServer.Load

/-- The id of the pages of a file. -/
def fileId (backing : Bytes) : Bytes := Fingerprint.text backing

/-- Where a job stands. -/
inductive JobState
  | running
  | succeeded
  | failed
  | stopped
  deriving DecidableEq, Repr

/-- The name of a state. -/
def JobState.name : JobState → Bytes
  | running => "RUNNING"
  | succeeded => "SUCCEEDED"
  | failed => "FAILED"
  | stopped => "STOPPED"

/-- The load of a path. -/
structure Job where
  path : Bytes
  options : LoadOptions
  filter : Option Regex.Pattern := none
  /-- Whether it was told to stop. -/
  cancelled : Bool := false
  state : JobState := .running
  tally : Tally := {}

/-- The directories still to be listed, and the files still to be loaded. -/
structure Walk where
  pending : List Bytes
  collected : List FileStatus := []
  deriving DecidableEq, Repr

/-- What comes after a round. -/
inductive Next
  | over
  | walk (w : Walk)

namespace Job

/-! ### Loading files -/

/-- Notes that a file failed. -/
def noteFailure (path reason : Bytes) : Program Unit := do
  Program.ofCall (.warn ("LocalLoadService: load of " ++ path ++ " failed: " ++ reason))
  Program.ofCall (.update fun t => { t with failures := t.failures ++ [(path, reason)] })

/-- The number of pages that bytes fill. -/
def pageCount (length pageSize : Int) : Nat :=
  if pageSize ≤ 0 then 0 else ((length + pageSize - 1) / pageSize).toNat

/-- Copies the pages of an open file from the `index`-th on, at most so many, of
    a file in which so many bytes were loaded. Ends with the bytes loaded in
    all, or with nothing if the load was told to stop or a page was declined. -/
def loadPages (pageSize : Int) (file : FileStatus) (source : OpenFile) :
    Nat → Int → Int → Program (Option Int)
  | 0, _, loaded => pure (some loaded)
  | n + 1, index, loaded => do
    if ← Program.ofCall .isStopped then return none
    let want := min pageSize (file.length - index * pageSize)
    match ← Program.ofCall (.read source (index * pageSize) want) with
    | none => return some loaded
    | some data =>
      if ← Program.ofCall (.writePage (fileId file.backing) index data) then
        Program.ofCall (.update fun t => { t with bytesLoaded := t.bytesLoaded + data.length })
        loadPages pageSize file source n (index + 1) (loaded + data.length)
      else
        noteFailure file.path ("page " ++ Numeral.ofInt index ++ " was not written")
        return none

/-- Compares what was loaded with the length that the file has now. -/
def verifyFile (file : FileStatus) (loaded : Int) : Program Unit := do
  let after ← Program.ofCall (.status file.path)
  if after.length ≠ loaded then
    noteFailure file.path
      ("verification failed: loaded " ++ Numeral.ofInt loaded ++ " of " ++
        Numeral.ofInt after.length ++ " bytes")

/-- The longest page that can be held. -/
def maxPage : Int := 0x3fffffffffffffff

/-- Copies the bytes of a file. -/
def copyFile (o : LoadOptions) (pageSize : Int) (file : FileStatus) : Program Unit := do
  let source ← Program.ofCall (.openFile file.path)
  if pageSize < 0 ∨ maxPage < pageSize then Program.fail (.logic "basic_string::_M_create")
  match ← loadPages pageSize file source (pageCount file.length pageSize) 0 0 with
  | none => return ()
  | some loaded => if o.verify then verifyFile file loaded else return ()

/-- Loads a file, unless only its status is wanted or it was loaded before. -/
def loadFile (o : LoadOptions) (pageSize : Int) (file : FileStatus) : Program Unit := do
  if o.metadataOnly then return ()
  else if o.skipExisting then
    if ← Program.ofCall (.isCached (fileId file.backing) 0) then
      Program.ofCall (.update fun t => { t with filesSkipped := t.filesSkipped + 1 })
    else copyFile o pageSize file
  else copyFile o pageSize file

/-- Whether a failure concerns only the file it came from. -/
def isOfFile (e : Failure) : Bool :=
  e.isFileSystem ||
    match e with
    | .pageStore _ => true
    | _ => false

/-- Loads files one after the other, until the load is told to stop. -/
def loadEach (o : LoadOptions) (pageSize : Int) : List FileStatus → Program Unit
  | [] => pure ()
  | file :: rest => do
    if ← Program.ofCall .isStopped then return ()
    (loadFile o pageSize file).recover fun e =>
      if isOfFile e then noteFailure file.path e.message else Program.fail e
    Program.ofCall (.update fun t => { t with filesProcessed := t.filesProcessed + 1 })
    loadEach o pageSize rest

/-- Counts and loads files. -/
def loadFiles (o : LoadOptions) (pageSize : Int) (files : List FileStatus) : Program Unit := do
  Program.ofCall (.update fun t => { t with filesTotal := t.filesTotal + files.length })
  loadEach o pageSize files

/-! ### Walking directories -/

/-- The start of a job: a file is loaded, a directory is walked. -/
def begin (job : Job) (pageSize : Int) : Program Next := do
  let root ← Program.ofCall (.status job.path)
  if root.isFolder then return .walk { pending := [root.path] }
  else
    loadFiles job.options pageSize [root]
    return .over

/-- Whether the filter lets a file through. -/
def selects (job : Job) (file : FileStatus) : Bool :=
  match job.filter with
  | none => true
  | some pattern => pattern.occursIn file.path

/-- The end of a walk: what was collected is loaded. -/
def finishWalk (job : Job) (pageSize : Int) (w : Walk) : Program Next := do
  if !job.options.partialListing then loadFiles job.options pageSize w.collected
  return .over

/-- One round of a walk: lists the first of the pending directories. -/
def round (job : Job) (pageSize : Int) (w : Walk) : Program Next := do
  match w.pending with
  | [] => job.finishWalk pageSize w
  | current :: rest =>
    if ← Program.ofCall .isStopped then job.finishWalk pageSize w
    else
      let children ← Program.ofCall (.list current)
      let pending := rest ++ (children.filter (·.isFolder)).map (·.path)
      let files := children.filter fun c => !c.isFolder && job.selects c
      if job.options.partialListing then
        loadFiles job.options pageSize files
        return .walk { w with pending }
      else return .walk { pending, collected := w.collected ++ files }

/-! ### Reports -/

/-- The failures of a job as text. -/
def failureLines (failures : List (Bytes × Bytes)) : Bytes :=
  failures.flatMap fun f => (ascii "\t\t" ++ f.1 ++ ": " ++ f.2 ++ "\n" : Bytes)

/-- The job as text. -/
def reportText (job : Job) (verbose : Bool) : Bytes :=
  let t := job.tally
  let counts : Bytes :=
    "Load '" ++ job.path ++ "' progress:\n\tState: " ++ job.state.name ++
      "\n\tFiles Processed: " ++ Numeral.ofInt t.filesProcessed ++ " of " ++
      Numeral.ofInt t.filesTotal ++
      "\n\tFiles Skipped: " ++ Numeral.ofInt t.filesSkipped ++
      "\n\tBytes Loaded: " ++ Numeral.ofInt t.bytesLoaded ++
      "\n\tFiles Failed: " ++ Numeral.ofNat t.failures.length ++ "\n"
  let error : Bytes := if t.error.isEmpty then [] else "\tError: " ++ t.error ++ "\n"
  counts ++ error ++ if verbose then failureLines t.failures else []

/-- A failure of a job as a JSON object. -/
def failureJson (f : Bytes × Bytes) : Bytes :=
  Json.object [("path", Json.string f.1), ("message", Json.string f.2)]

/-- The job as a JSON object. -/
def reportJson (job : Job) (verbose : Bool) : Bytes :=
  let t := job.tally
  let counts : List (Bytes × Bytes) :=
    [("path", Json.string job.path), ("state", Json.string job.state.name),
      ("filesProcessed", Numeral.ofInt t.filesProcessed),
      ("filesTotal", Numeral.ofInt t.filesTotal),
      ("filesSkipped", Numeral.ofInt t.filesSkipped),
      ("bytesLoaded", Numeral.ofInt t.bytesLoaded),
      ("failureCount", Numeral.ofNat t.failures.length)]
  let error : List (Bytes × Bytes) :=
    if t.error.isEmpty then [] else [("error", Json.string t.error)]
  let failures : List (Bytes × Bytes) :=
    if verbose then [("failures", Json.array (t.failures.map failureJson))] else []
  Json.object (counts ++ error ++ failures)

/-- The job as a client asks for it. -/
def report (job : Job) (o : LoadOptions) : Bytes :=
  if o.progressFormat.sameFolded "JSON" then job.reportJson o.verbose else job.reportText o.verbose

end Job

end PageServer.Load
