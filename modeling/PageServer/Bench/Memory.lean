import PageServer.Bench.Faults
import PageServer.Pages.Store
import PageServer.Table

/-!
# Files and pages in memory

A file system and a page store without a disk. Entries of the file system live
under their exact paths: nothing is normalized, and a directory need not be
there for its entries to be. A file may state another length than it has.

The page store keeps what was written under file id and index, and writes it
into the memory file `/cache/<id>` besides, where a reader finds it. It takes
pages of any size, and can be told to refuse them.
-/

namespace PageServer.Bench

/-- What an entry of a tree is. A file may state a length. -/
inductive TreeKind
  | directory
  | file (content : Bytes) (length : Option Int)
  | link (target : Bytes)
  deriving DecidableEq, Repr

/-- An entry of a tree of files. -/
structure TreeEntry where
  path : Bytes
  kind : TreeKind
  modified : Int := 1000
  deriving DecidableEq, Repr

/-- What is at a path in memory. -/
inductive MemoryEntry
  | directory (modified : Int)
  | file (content : Bytes) (length : Int) (modified : Int)
  deriving DecidableEq, Repr

/-- What the page store does with a page. -/
inductive StoreMode
  | stores
  | declines
  /-- Refuses it, with a failure of the store. -/
  | refuses
  /-- Fails as nobody expects. -/
  | crashes
  /-- Fails when it is asked where a page is. -/
  | losesPages
  deriving DecidableEq, Repr

/-- The order of pages: by file id, then by index. -/
def comparePage (a b : Bytes × Int) : Ordering := (compare a.1 b.1).then (compare a.2 b.2)

instance : Std.TransCmp comparePage :=
  inferInstanceAs (Std.TransCmp (compareLex (compareOn Prod.fst) (compareOn Prod.snd)))

/-- The memory. -/
structure Memory where
  entries : Table (compare : Bytes → Bytes → Ordering) MemoryEntry := .empty
  pages : Table comparePage Bytes := .empty
  mode : StoreMode := .stores
  /-- The first page index that the mode is for; the pages before it are
      stored. -/
  modeFrom : Int := 0

namespace Memory

/-! ### Files -/

/-- The place where a path is kept. -/
def backing (path : Bytes) : Bytes := "mem://" ++ path

/-- The status of an entry. -/
def statusOf (path : Bytes) : MemoryEntry → FileStatus
  | .directory modified =>
    { isFolder := true, name := path.baseName, path, backing := backing path, modified }
  | .file _ length modified =>
    { name := path.baseName, path, backing := backing path, modified, length }

/-- The memory with an entry at a path. -/
def put (m : Memory) (path : Bytes) (entry : MemoryEntry) : Memory :=
  { m with entries := m.entries.insert path entry }

/-- The memory with an entry of a tree. In memory a link is an empty file. -/
def plant (m : Memory) (e : TreeEntry) : Memory :=
  match e.kind with
  | .directory => m.put e.path (.directory e.modified)
  | .file content length => m.put e.path (.file content (length.getD content.length) e.modified)
  | .link _ => m.put e.path (.file [] 0 e.modified)

/-- The memory without the entry at a path. -/
def remove (m : Memory) (path : Bytes) : Memory := { m with entries := m.entries.erase path }

/-- The status of a path. -/
def status (m : Memory) (path : Bytes) : Except Failure FileStatus :=
  match m.entries.get? path with
  | none => .error (.noSuchPath path)
  | some entry => .ok (statusOf path entry)

/-- Whether a path is directly in a directory. -/
def isChild (directory path : Bytes) : Bool :=
  let start : Bytes := if directory == [Byte.slash] then directory else directory ++ [Byte.slash]
  let name := path.drop start.length
  start.isPrefixOf path && !name.isEmpty && !name.elem Byte.slash

/-- The entries of a directory, or the file itself. -/
def list (m : Memory) (path : Bytes) : Except Failure (List FileStatus) :=
  match m.entries.get? path with
  | none => .error (.noSuchPath path)
  | some (.directory _) =>
    .ok ((m.entries.entries.filter fun e => isChild path e.1).map fun e => statusOf e.1 e.2)
  | some entry => .ok [statusOf path entry]

/-- Opens a file for reading. -/
def openFile (m : Memory) (path : Bytes) : Except Failure OpenFile := do
  let _ ← m.status path
  return { path }

/-- The bytes at a path. -/
def content (m : Memory) (path : Bytes) : Bytes :=
  match m.entries.get? path with
  | some (.file bytes _ _) => bytes
  | _ => []

/-- Reads from an open file; nothing if the position is at the end or beyond. -/
def read (m : Memory) (file : OpenFile) (position length : Int) : Option Bytes :=
  match (m.content file.path).drop position.toNat with
  | [] => if length = 0 then some [] else none
  | rest => some (rest.take length.toNat)

/-! ### Pages -/

/-- The path of the file with the pages of a file id. -/
def cachePath (id : Bytes) : Bytes := "/cache/" ++ id

/-- The memory with bytes written into a file, which is made if it is not
    there. -/
def writeFile (m : Memory) (path : Bytes) (offset : Nat) (data : Bytes) : Memory :=
  let modified := match m.entries.get? path with
    | some (.file _ _ modified) => modified
    | _ => 0
  let bytes := (m.content path).overwrite offset data
  m.put path (.file bytes bytes.length modified)

/-- The memory with a page kept. -/
def keepPage (m : Memory) (pageSize : Int) (id : Bytes) (index : Int) (data : Bytes) : Memory :=
  let m := m.writeFile (cachePath id) (index * pageSize).toNat data
  { m with pages := m.pages.insert (id, index) data }

/-- The mode for a page. -/
def modeOf (m : Memory) (index : Int) : StoreMode :=
  if m.modeFrom ≤ index then m.mode else .stores

/-- Writes a page. -/
def writePage (pageSize : Int) (id : Bytes) (index : Int) (data : Bytes) : Act Memory Bool := do
  match (← Act.get).modeOf index with
  | .declines => return false
  | .refuses => throw (.pageStore "store is read-only")
  | .crashes => throw (.unexpected "store crashed")
  | .stores | .losesPages =>
    Act.modify fun m => m.keepPage pageSize id index data
    return true

/-- Where a page is. -/
def locatePage {σ : Type} (m : Memory) (pageSize : Int) (id : Bytes) (index : Int) :
    Except Failure (Option (PageLocation σ)) :=
  if m.mode = .losesPages then .error (.unexpected "lookup crashed")
  else if m.pages.contains (id, index) then
    .ok (some { path := cachePath id, base := index * pageSize })
  else .ok none

/-! ### As parts of a larger state -/

variable {σ : Type}

/-- The file system of a memory, with the plan observed. -/
def fileSystem (part : Part σ Memory) (plan : Part σ Faults) : FileSystem σ where
  list path := planned plan .list path fun s => ⟨(part.get s).list path, s, []⟩
  status path := planned plan .status path fun s => ⟨(part.get s).status path, s, []⟩
  openFile path := planned plan .openFile path fun s => ⟨(part.get s).openFile path, s, []⟩
  read file position length :=
    planned plan .read file.path fun s => ⟨.ok ((part.get s).read file position length), s, []⟩

/-- The page store of a memory, with the gate of the plan observed. -/
def pageStore (part : Part σ Memory) (plan : Part σ Faults) (pageSize : Int) : PageStore σ where
  pageSize
  write id index data :=
    counted plan .write id (Act.within part (writePage pageSize id index data))
  locate id index := fun s => ⟨(part.get s).locatePage pageSize id index, s, []⟩

end Memory

end PageServer.Bench
