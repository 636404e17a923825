import PageServer.Load.Job

/-!
# The load service

The service takes loads and runs them one at a time, in the order in which they
came. A path has one job at most; while it is running no other one is taken for
the path. Finished jobs can be asked for until too many have finished after
them.

* `Service.load`: what clients ask for;
* `Service.step`: one step of the work.
-/

namespace PageServer.Load

/-- A loader with states of type `σ`: what it says to a load request. -/
structure Loader (σ : Type) where
  load : Bytes → LoadOptions → Act σ Bytes

/-- A job at work: what is left of its present round. -/
structure AtWork where
  path : Bytes
  program : Program Next

/-- The jobs of the service. -/
structure Service where
  /-- How many finished jobs are kept. -/
  limit : Nat := 128
  jobs : Table (compare : Bytes → Bytes → Ordering) Job := .empty
  /-- The paths of the finished jobs, the oldest first. -/
  finished : List Bytes := []
  /-- The paths of the jobs not begun, the oldest first. -/
  waiting : List Bytes := []
  current : Option AtWork := none

namespace Service

/-! ### Requests -/

/-- Whether the path has a job that is running. -/
def isRunning (s : Service) (path : Bytes) : Bool :=
  match s.jobs.get? path with
  | none => false
  | some job => job.state == .running

/-- The pattern of a filter; an empty one stands for none. -/
def parseFilter (o : LoadOptions) : Except Bytes (Option Regex.Pattern) :=
  match o.filter with
  | none => .ok none
  | some [] => .ok none
  | some text =>
    match Regex.Pattern.parse text with
    | .ok pattern => .ok (some pattern)
    | .error e => .error ("Invalid fileFilterRegx '" ++ text ++ "': " ++ e.message)

/-- The service with a job in the place of the last one for its path. -/
def enter (s : Service) (job : Job) : Service :=
  { s with
    finished := s.finished.filter (· != job.path)
    jobs := (s.jobs.erase job.path).insert job.path job
    waiting := s.waiting ++ [job.path] }

/-- Takes a load. -/
def submit (path : Bytes) (o : LoadOptions) : Act Service Bytes := do
  match parseFilter o with
  | .error reason => return reason
  | .ok filter =>
    if (← Act.get).isRunning path then return "Load '" ++ path ++ "' is already running."
    else
      Act.modify fun s => s.enter { path, options := o, filter }
      Act.record .info ("LocalLoadService: submitted load of " ++ path ++ " " ++ o.text)
      return "Load '" ++ path ++ "' is successfully submitted."

/-- The service with the job of a path changed. -/
def change (s : Service) (path : Bytes) (f : Job → Job) : Service :=
  match s.jobs.get? path with
  | none => s
  | some job => { s with jobs := s.jobs.insert path (f job) }

/-- Tells a load to stop. -/
def stop (path : Bytes) : Act Service Bytes := do
  if (← Act.get).isRunning path then
    Act.modify fun s => s.change path fun job => { job with cancelled := true }
    Act.record .info ("LocalLoadService: stop requested for " ++ path)
    return "Load '" ++ path ++ "' is successfully stopped."
  else
    return "Cannot find load job for path " ++ path ++
      ", it might have already been stopped or finished."

/-- Tells how far a load is. -/
def progress (path : Bytes) (o : LoadOptions) : Act Service Bytes := do
  match (← Act.get).jobs.get? path with
  | none => return "Load for path '" ++ path ++ "' cannot be found."
  | some job => return job.report o

/-- Answers a load request; one that asks for nothing in particular submits. -/
def load (path : Bytes) (o : LoadOptions) : Act Service Bytes :=
  match o.operation.getD .submit with
  | .submit => submit path o
  | .stop => stop path
  | .progress => progress path o

/-! ### Work -/

/-- The service without the oldest finished jobs beyond the limit. -/
def evict (s : Service) : Service :=
  let excess := s.finished.length - s.limit
  { s with
    jobs := (s.finished.take excess).foldl (fun jobs path => jobs.erase path) s.jobs
    finished := s.finished.drop excess }

/-- The service after a job has ended. -/
def close (s : Service) (path : Bytes) (state : JobState) : Service :=
  let s := s.change path fun job => { job with state }
  { s with finished := s.finished ++ [path], current := none }.evict

/-- The record of a job that has ended. -/
def endingText (job : Job) (state : JobState) : Bytes :=
  "LocalLoadService: load of " ++ job.path ++ " finished state=" ++ state.name ++
    " files=" ++ Numeral.ofInt job.tally.filesProcessed ++
    " bytes=" ++ Numeral.ofInt job.tally.bytesLoaded

/-- Ends a job. -/
def finish (job : Job) (state : JobState) : Act Service Unit := do
  Act.modify fun s => s.close job.path state
  Act.record .info (endingText job state)

/-- Ends a job that failed as a whole. -/
def giveUp (job : Job) (reason : Bytes) : Act Service Unit := do
  Act.record .warn ("LocalLoadService: load of " ++ job.path ++ " failed: " ++ reason)
  Act.modify fun s =>
    s.change job.path fun j => { j with tally := { j.tally with error := reason } }
  finish job .failed

/-- How a job ends whose work is done. -/
def endState (job : Job) : JobState :=
  if job.cancelled then .stopped
  else if job.tally.failures.isEmpty then .succeeded
  else .failed

/-- Begins a job, unless it was told to stop before. -/
def start (pageSize : Int) (job : Job) : Act Service Unit :=
  if job.cancelled then finish job .stopped
  else Act.modify fun s => { s with current := some ⟨job.path, job.begin pageSize⟩ }

/-- What follows the end of a round. A failure that nobody expects gets
    through. -/
def afterRound (pageSize : Int) (job : Job) (result : Except Failure Next) : Act Service Unit :=
  match result with
  | .ok .over => finish job (endState job)
  | .ok (.walk w) =>
    Act.modify fun s => { s with current := some ⟨job.path, job.round pageSize w⟩ }
  | .error e =>
    if e.isFileSystem then giveUp job e.message
    else
      match e with
      | .pattern _ => giveUp job ("fileFilterRegx: " ++ e.message)
      | _ => throw e

/-- The call that the work has come to, if it has come to one. -/
def nextCall (s : Service) : Option Call :=
  match s.current with
  | some ⟨_, .call c _⟩ => some c
  | _ => none

/-- Whether there is nothing to do. -/
def isIdle (s : Service) : Bool := s.current.isNone && s.waiting.isEmpty

end Service

/-! ### The service at work -/

/-- What the service works with, on states of type `σ`. -/
structure Workplace (σ : Type) where
  files : FileSystem σ
  pages : PageStore σ
  service : Part σ Service

namespace Workplace

variable {σ : Type}

/-- Answers load requests. -/
def loader (w : Workplace σ) : Loader σ where
  load path o := Act.within w.service (Service.load path o)

/-- Makes a call for the job of a path. -/
def perform (w : Workplace σ) (path : Bytes) : (c : Call) → Act σ c.Reply
  | .status p => w.files.status p
  | .list p => w.files.list p
  | .openFile p => w.files.openFile p
  | .read file position length => w.files.read file position length
  | .isCached id index => do return (← w.pages.locate id index).isSome
  | .writePage id index data => w.pages.write id index data
  | .isStopped => Act.within w.service do
    return (((← Act.get).jobs.get? path).map (·.cancelled)).getD true
  | .update f => Act.within w.service
    (Act.modify fun s => s.change path fun job => { job with tally := f job.tally })
  | .warn message => Act.record .warn message

/-- One step of the work: a call, the end of a round, or the start of a job. A
    failure that gets through ends the program: nothing follows this step. -/
def step (w : Workplace σ) : Act σ Unit := do
  let s ← Act.within w.service Act.get
  match s.current with
  | none =>
    match s.waiting with
    | [] => return ()
    | path :: rest => Act.within w.service do
      Act.modify fun s => { s with waiting := rest }
      match s.jobs.get? path with
      | none => return ()
      | some job => Service.start w.pages.pageSize job
  | some ⟨path, .call c next⟩ =>
    let reply ← (w.perform path c).attempt
    Act.within w.service (Act.modify fun s => { s with current := some ⟨path, next reply⟩ })
  | some ⟨path, .done result⟩ => Act.within w.service do
    match s.jobs.get? path with
    | none => Act.modify fun s => { s with current := none }
    | some job => Service.afterRound w.pages.pageSize job result

/-- Works until nothing is left to do or `pause` says so, for at most so many
    steps. The records come after those made before. -/
def workFrom (w : Workplace σ) (pause : σ → Bool) : Nat → List Log.Record → Act σ Unit
  | 0, log => fun s => ⟨.ok (), s, log⟩
  | n + 1, log => fun s =>
    if (w.service.get s).isIdle || pause s then ⟨.ok (), s, log⟩
    else
      let o := w.step s
      match o.result with
      | .ok _ => workFrom w pause n (log ++ o.log) o.state
      | .error e => ⟨.error e, o.state, log ++ o.log⟩

/-- Works until nothing is left to do or `pause` says so, for at most so many
    steps. -/
def workUntil (w : Workplace σ) (pause : σ → Bool) (steps : Nat) : Act σ Unit :=
  w.workFrom pause steps []

end Workplace

end PageServer.Load
