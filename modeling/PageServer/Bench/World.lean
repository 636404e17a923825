import PageServer.Bench.Memory
import PageServer.Bench.Replies
import PageServer.Files.Local
import PageServer.Pages.Local
import PageServer.Server.Exchange

/-!
# A worker on the bench

A whole worker, put together from parts of choice: files and pages in memory or
on a disk, and a load service that runs its loads or only remembers what was
asked of it. Everything that such a worker can change is one state, the `World`.

Loads are worked on only when someone waits for them, so that every look at
them between two waits finds them where they were. Work stops at a gate, too.

* `Setup.assemble`: builds the worker;
* `Rig.waitFor`, `Rig.reachGate`: let loads go on;
* `Rig.receive`: bytes arrive on the worker's only connection.
-/

namespace PageServer.Bench

open Http

/-- A load service that remembers what was asked of it. -/
structure Recorder where
  /-- What it says to each request. -/
  reply : Bytes := "accepted"
  failure : Option Failure := none
  /-- The paths and options asked for, the oldest first. -/
  calls : List (Bytes × LoadOptions) := []

/-- What the worker changes. -/
structure World where
  memory : Memory := {}
  disk : Disk := {}
  plan : Faults := {}
  metrics : Metrics := {}
  service : Load.Service := {}
  recorder : Recorder := {}
  /-- The connection to the worker, if there is one. -/
  connection : Option Connection := none
  /-- How many directories were listed: what the bench has for a clock. -/
  listings : Nat := 0

namespace World

/-! ### The parts of the world -/

def memoryPart : Part World Memory := ⟨memory, fun m w => { w with memory := m }⟩

def diskPart : Part World Disk := ⟨disk, fun d w => { w with disk := d }⟩

def planPart : Part World Faults := ⟨plan, fun f w => { w with plan := f }⟩

def metricsPart : Part World Metrics := ⟨metrics, fun m w => { w with metrics := m }⟩

def servicePart : Part World Load.Service := ⟨service, fun s w => { w with service := s }⟩

def recorderPart : Part World Recorder := ⟨recorder, fun r w => { w with recorder := r }⟩

end World

/-! ### A disk for the bench -/

/-- Where the worker's relative paths start. -/
def home : DiskPlace := ["tmp", "bench"]

/-- The entry of a disk for an entry of a tree. -/
def TreeEntry.onDisk (e : TreeEntry) : DiskEntry :=
  match e.kind with
  | .directory => .directory e.modified
  | .file content _ => .file content e.modified
  | .link target => .link target

/-- The disk with an entry of a tree below a directory. -/
def plant (directory : DiskPlace) (d : Disk) (e : TreeEntry) : Disk :=
  d.putDeep (directory ++ (Disk.components e.path).filter fun s => !s.isEmpty) e.onDisk

/-- A disk with a tree below a directory that is given from the home directory
    on. -/
def diskOf (below : List Bytes) (tree : List TreeEntry) : Disk :=
  tree.foldl (plant (home ++ below)) (({ home } : Disk).putDeep (home ++ below) (.directory 1000))

/-- The name of the directory for the tree. -/
def treeRoot : Bytes := "data"

/-! ### Assembly -/

/-- Answers a load request by remembering it. -/
def Recorder.load (path : Bytes) (o : LoadOptions) : Act Recorder Bytes := do
  let r ← Act.get
  match r.failure with
  | some e => throw e
  | none =>
    Act.modify fun r => { r with calls := r.calls ++ [(path, o)] }
    return r.reply

/-- What a worker is put together from. -/
structure Setup where
  /-- The root of the files on the disk; without one they are in memory. -/
  fileRoot : Option Bytes := none
  /-- The root of the pages on the disk; without one they are in memory. -/
  pageRoot : Option Bytes := none
  pageSize : Int := 16
  /-- How many finished loads are kept; without a number loads are only
      remembered. -/
  loadLimit : Option Nat := none

/-- A worker on the bench. -/
structure Rig where
  setup : Setup
  files : FileSystem World
  pages : PageStore World
  router : Router World

namespace Setup

/-- The files, with a clock that ticks as directories are listed. -/
def clocked (files : FileSystem World) : FileSystem World :=
  { files with
    list := fun path => do
      Act.modify fun w => { w with listings := w.listings + 1 }
      files.list path }

/-- The files that are chosen. -/
def files (setup : Setup) : FileSystem World :=
  clocked <|
    match setup.fileRoot with
    | none => Memory.fileSystem World.memoryPart World.planPart
    | some root => (LocalFiles.ofRoot root).onDisk.within World.diskPart

/-- The pages that are chosen. -/
def makePages (setup : Setup) : Act World (PageStore World) :=
  match setup.pageRoot with
  | none => pure (Memory.pageStore World.memoryPart World.planPart setup.pageSize)
  | some root => do
    let pages ← Act.within World.diskPart (LocalPages.create root setup.pageSize)
    return pages.store World.diskPart

/-- What loads work with. -/
def workplace (setup : Setup) (pages : PageStore World) : Load.Workplace World :=
  ⟨setup.files, pages, World.servicePart⟩

/-- The load service that is chosen. -/
def loader (setup : Setup) (pages : PageStore World) : Load.Loader World :=
  match setup.loadLimit with
  | none => ⟨fun path o => Act.within World.recorderPart (Recorder.load path o)⟩
  | some _ => (setup.workplace pages).loader

/-- What the routes of the worker work with. -/
def desk (setup : Setup) (pages : PageStore World) : Worker.Desk World :=
  { files := setup.files, pages, metrics := World.metricsPart, loader := setup.loader pages }

/-- The world with a tree in the place that files are taken from. -/
def world (setup : Setup) (tree : List TreeEntry) : World :=
  match setup.fileRoot with
  | some _ => { disk := diskOf [treeRoot] tree }
  | none => { disk := diskOf [] [], memory := tree.foldl Memory.plant {} }

/-- Puts a worker together. -/
def assemble (setup : Setup) : Act World Rig := do
  let pages ← setup.makePages
  Act.within World.servicePart (Act.modify fun s => { s with limit := setup.loadLimit.getD s.limit })
  Act.within World.metricsPart (Act.modify Worker.registerTraffic)
  let router ← (setup.desk pages).install {}
  return ⟨setup, setup.files, pages, router⟩

end Setup

namespace Rig

/-! ### Loads -/

/-- The kind and the path of a call that can be planned for. -/
def callOf (w : Rig) : Load.Call → Option (CallKind × Bytes)
  | .status path => if w.setup.fileRoot.isNone then some (.status, path) else none
  | .list path => if w.setup.fileRoot.isNone then some (.list, path) else none
  | .openFile path => if w.setup.fileRoot.isNone then some (.openFile, path) else none
  | .read file _ _ => if w.setup.fileRoot.isNone then some (.read, file.path) else none
  | .writePage id _ _ => if w.setup.pageRoot.isNone then some (.write, id) else none
  | _ => none

/-- Whether the work has come to the gate. -/
def isHeld (w : Rig) (s : World) : Bool :=
  match s.service.nextCall.bind w.callOf with
  | none => false
  | some (kind, path) => s.plan.holds kind path

/-- More steps than any work takes that ends. -/
def manySteps : Nat := 0x4000000000000000

/-- Works on loads until there are none, or the gate or `enough` stops the
    work. -/
def work (w : Rig) (enough : World → Bool) : Act World Unit :=
  (w.setup.workplace w.pages).workUntil (fun s => w.isHeld s || enough s) manySteps

/-- How many directories are listed before nobody waits for a load any longer. -/
def patience : Nat := 1000

/-- Waits for the load of a path, but not for ever; tells whether it is over. -/
def waitFor (w : Rig) (path : Bytes) : Act World Bool := do
  let due := (← Act.get).listings + patience
  w.work fun s => !s.service.isRunning path || due ≤ s.listings
  return !(← Act.get).service.isRunning path

/-- Lets loads go on up to the gate; tells whether they come to it. -/
def reachGate (w : Rig) : Act World Bool := do
  w.work fun _ => false
  return w.isHeld (← Act.get)

/-- Opens the gate. -/
def openGate : Act World Unit :=
  Act.within World.planPart (Act.modify fun f => { f with gate := none })

/-! ### Reading -/

/-- Reads from the file at a path. -/
def readBytes (files : FileSystem World) (path : Bytes) (position length : Int) :
    Act World (Option Bytes) := do
  files.read (← files.openFile path) position length

/-- Reads from the beginning of a page. -/
def readPage (w : Rig) (id : Bytes) (index length : Int) :
    Act World (Option (Option Bytes)) := do
  match ← w.pages.locate id index with
  | none => return none
  | some l => return some (← readBytes (l.source.getD w.files) l.path l.base length)

/-! ### Connections -/

/-- Opens a server with the options of a settings text, but at an address of
    this machine that nobody else has. -/
def openServer (w : Rig) (settings : Bytes) : Act World (Server World) :=
  let settings := (Settings.loadText {} settings).value
  let o := (ServerOptions.ofSettings settings).value
  Server.create .alone 0 { o with ip := "127.0.0.1", port := 0 } (w.setup.desk w.pages)

/-- A new connection. -/
def freshConnection : Connection := { name := "conn#1" }

/-- Replaces the connection. -/
def reconnect : Act World Unit := do
  let old := (← Act.get).connection
  Act.modify fun s => { s with connection := some freshConnection }
  match old with
  | none => return ()
  | some c => Act.report ⟨(), [c.farewell]⟩

/-- Bytes arrive on the connection, which is made if there is none. -/
def receive (w : Rig) (bytes : Bytes) : Act World Moved := do
  let c := (← Act.get).connection.getD freshConnection
  let (c, actions) ← c.receive w.router.answer bytes
  Act.modify fun s => { s with connection := some c }
  return (c, actions)

end Rig

end PageServer.Bench
