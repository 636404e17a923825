import PageServer.Act
import PageServer.Json

/-!
# File systems

What the server knows of a file system: it lists directories, tells the status
of a path, and opens files for reading at any position (`FileSystem`). A file
listed as a directory lists as itself. A path that does not exist is
`Failure.noSuchPath`; anything else that goes wrong is `Failure.fileSystem`.

Clients see a status as an entry, which is a JSON object (`FileEntry.json`).
-/

namespace PageServer

/-- What is known of a file or directory. -/
structure FileStatus where
  isFolder : Bool := false
  name : Bytes := []
  /-- Its path in the file system. -/
  path : Bytes := []
  /-- Where it is kept. -/
  backing : Bytes := []
  /-- When it was last changed, in milliseconds. -/
  modified : Int := 0
  length : Int := 0
  deriving DecidableEq, Repr

namespace FileStatus

/-- The list with one more in front of the first that has no smaller name. -/
def place (s : FileStatus) : List FileStatus → List FileStatus
  | [] => [s]
  | t :: rest => if s.name ≤ t.name then s :: t :: rest else t :: s.place rest

/-- The list in the order of the names. -/
def sort : List FileStatus → List FileStatus
  | [] => []
  | s :: rest => s.place (sort rest)

end FileStatus

/-- A file or directory as clients are told of it. -/
structure FileEntry where
  /-- Whether it is a file or a directory, in a word. -/
  type : Bytes := []
  name : Bytes := []
  /-- Its path in the file system. -/
  path : Bytes := []
  /-- Where it is kept. -/
  backing : Bytes := []
  /-- When it was last changed, in milliseconds. -/
  modified : Int := 0
  length : Int := 0
  deriving DecidableEq, Repr

namespace FileEntry

/-- The entry of a status. -/
def ofStatus (s : FileStatus) : FileEntry where
  type := if s.isFolder then "directory" else "file"
  name := s.name
  path := s.path
  backing := s.backing
  modified := s.modified
  length := s.length

/-- The entry as a JSON object. -/
def json (e : FileEntry) : Bytes :=
  Json.object [
    ("type", Json.string e.type),
    ("name", Json.string e.name),
    ("logicalPath", Json.string e.path),
    ("backingPath", Json.string e.backing),
    ("lastModifiedMillis", Numeral.ofInt e.modified),
    ("lengthBytes", Numeral.ofInt e.length)]

/-- A list of entries as a JSON array. -/
def jsonArray (l : List FileEntry) : Bytes := Json.array (l.map json)

end FileEntry

namespace FileStatus

/-- The status as a JSON object. -/
def json (s : FileStatus) : Bytes := (FileEntry.ofStatus s).json

/-- A list of status as a JSON array. -/
def jsonArray (l : List FileStatus) : Bytes := FileEntry.jsonArray (l.map FileEntry.ofStatus)

end FileStatus

/-- A file opened for reading: its path, and the names by which the file system
    finds it again. -/
structure OpenFile where
  path : Bytes
  handle : List Bytes := [path]
  deriving DecidableEq, Repr

/-- A file system with states of type `σ`. -/
structure FileSystem (σ : Type) where
  /-- The children of a directory, or the file itself. -/
  list : Bytes → Act σ (List FileStatus)
  status : Bytes → Act σ FileStatus
  openFile : Bytes → Act σ OpenFile
  /-- Up to so many bytes at a position, or nothing where there are none. -/
  read : OpenFile → Int → Int → Act σ (Option Bytes)

end PageServer
