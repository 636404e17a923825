import PageServer.Files.Disk
import PageServer.Files.Status

/-!
# Local files

A file system that shows the files below a root directory of the disk. Its paths
are canonical: a slash in front of each segment, and no empty segments or `.`
among them (`LocalFiles.normalize`). A path with `..` in it is refused, so that
no path leads above the root by its own words.

* `LocalFiles.resolve`: the path on the disk that a canonical path stands for;
* `LocalFiles.fileSystem`: the file system.
-/

namespace PageServer

/-- The files below a root directory. -/
structure LocalFiles where
  root : Bytes
  deriving DecidableEq, Repr

namespace LocalFiles

/-- A root without the slashes that end it. -/
def trimRoot (root : Bytes) : Bytes :=
  match Disk.dropSlashes root, root with
  | [], _ :: _ => [Byte.slash]
  | trimmed, _ => trimmed

/-- The files below a directory of the disk. The root of the disk is written as
    an empty root. -/
def ofRoot (root : Bytes) : LocalFiles :=
  let trimmed := trimRoot root
  ⟨if trimmed == [Byte.slash] then [] else trimmed⟩

/-- Whether a segment counts. -/
def isSegment (s : Bytes) : Bool := !s.isEmpty && s != "."

/-- The canonical form of segments. -/
def ofSegments (segments : List Bytes) : Bytes :=
  match segments with
  | [] => [Byte.slash]
  | _ => segments.flatMap (Byte.slash :: ·)

/-- The canonical form of a path, unless it goes up. -/
def normalize (path : Bytes) : Except Failure Bytes :=
  let segments := path.splitOn Byte.slash
  if segments.contains ".." then .error (.fileSystem ("Invalid path (contains ..): " ++ path))
  else .ok (ofSegments (segments.filter isSegment))

/-- The path on the disk of a canonical path. -/
def resolve (f : LocalFiles) (logical : Bytes) : Bytes :=
  if logical == [Byte.slash] then if f.root.isEmpty then [Byte.slash] else f.root
  else f.root ++ logical

/-- The path of an entry of a directory. -/
def child (directory name : Bytes) : Bytes :=
  (if directory == [Byte.slash] then [] else directory) ++ Byte.slash :: name

/-- The status of an entry of the disk. -/
def statusOf (logical disk : Bytes) (entry : DiskEntry) : FileStatus :=
  let s : FileStatus := { name := logical.baseName, path := logical, backing := disk }
  match entry with
  | .directory modified => { s with isFolder := true, modified }
  | .file content modified => { s with modified, length := content.length }
  | .link _ => s

/-- What is said of a call that failed. -/
def callFailed (call path : Bytes) (e : DiskError) : Failure :=
  .fileSystem (call ++ " " ++ path ++ ": " ++ e.message)

/-- The failure of a call that needs its path to be there. -/
def pathFailed (call logical : Bytes) (e : DiskError) : Failure :=
  if e.saysAbsent then .noSuchPath logical else callFailed call logical e

/-- The canonical form of a path, and its path on the disk. -/
def paths (f : LocalFiles) (path : Bytes) : Except Failure (Bytes × Bytes) := do
  let logical ← normalize path
  return (logical, f.resolve logical)

/-- The status of a canonical path. -/
def lookUp (f : LocalFiles) (d : Disk) (logical : Bytes) : Except Failure FileStatus :=
  match d.status (f.resolve logical) with
  | .error e => .error (pathFailed "stat" logical e)
  | .ok entry => .ok (statusOf logical (f.resolve logical) entry)

/-- The status of a path. -/
def status (f : LocalFiles) (d : Disk) (path : Bytes) : Except Failure FileStatus := do
  f.lookUp d (← normalize path)

/-- The status of an entry of a directory. One that cannot be looked at is left
    out, and so is a link that leads nowhere. -/
def childStatus (d : Disk) (logical disk name : Bytes) : Reported (Option FileStatus) :=
  let path := child disk name
  match d.linkStatus path with
  | .error e => do
    Reported.record .debug
      ("LocalFileSystem: skipping " ++ path ++ " errno=" ++ Numeral.ofNat e.code)
    return none
  | .ok (.link _) =>
    match d.status path with
    | .error _ => pure none
    | .ok entry => pure (some (statusOf (child logical name) path entry))
  | .ok entry => pure (some (statusOf (child logical name) path entry))

/-- The status of the entries of a directory, as their names were read. -/
def childStatuses (d : Disk) (logical disk : Bytes) : List Bytes → Reported (List FileStatus)
  | [] => pure []
  | name :: rest => do
    let first ← childStatus d logical disk name
    let others ← childStatuses d logical disk rest
    return first.toList ++ others

/-- The status of the entries of a directory, in the order of their names. -/
def directoryEntries (d : Disk) (logical disk : Bytes) (place : DiskPlace) :
    Reported (List FileStatus) := do
  return FileStatus.sort (← childStatuses d logical disk (d.namesRead place))

/-- The entries of a directory, or the file itself. -/
def list (f : LocalFiles) (d : Disk) (path : Bytes) : Except Failure (Reported (List FileStatus)) := do
  let (logical, disk) ← f.paths path
  match d.find true disk with
  | .error e => .error (pathFailed "stat" logical e)
  | .ok (place, .directory _) => .ok (directoryEntries d logical disk place)
  | .ok (_, entry) => .ok (pure [statusOf logical disk entry])

/-- Opens a file for reading. A directory can be opened too, but not read. -/
def openFile (f : LocalFiles) (d : Disk) (path : Bytes) : Except Failure OpenFile := do
  let (logical, disk) ← f.paths path
  match d.find true disk with
  | .error e => .error (pathFailed "open" logical e)
  | .ok (place, _) => .ok ⟨logical, place⟩

/-- Reads from an open file; nothing if there is nothing at the position. -/
def read (d : Disk) (file : OpenFile) (position length : Int) : Except Failure (Option Bytes) :=
  if position < 0 ∨ length < 0 then .error (.fileSystem ("Invalid read range on " ++ file.path))
  else if length = 0 then .ok (some [])
  else
    match d.read file.handle position.toNat length.toNat with
    | .error e => .error (callFailed "pread" file.path e)
    | .ok [] => .ok none
    | .ok bytes => .ok (some bytes)

/-- The file system of the files, with the disk as its state. -/
def onDisk (f : LocalFiles) : FileSystem Disk where
  list path := fun d =>
    match f.list d path with
    | .error e => ⟨.error e, d, []⟩
    | .ok r => ⟨.ok r.value, d, r.log⟩
  status path := fun d => ⟨f.status d path, d, []⟩
  openFile path := fun d => ⟨f.openFile d path, d, []⟩
  read file position length := fun d => ⟨read d file position length, d, []⟩

end LocalFiles

/-- The file system on a part of a larger state. -/
def FileSystem.within {σ τ : Type} (fs : FileSystem τ) (part : Part σ τ) : FileSystem σ where
  list path := Act.within part (fs.list path)
  status path := Act.within part (fs.status path)
  openFile path := Act.within part (fs.openFile path)
  read file position length := Act.within part (fs.read file position length)

end PageServer
