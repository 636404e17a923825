import PageServer.Numeral
import PageServer.Table

/-!
# Disks

A disk is a tree of directories, files and symbolic links. It is kept as a table
of all places below the root, a place being the list of the names that lead to
it. Times are those that entries were put with; what is made later has time
zero. A directory that is read gives its names in an order of the disk's own,
which may be any (`ReadOrder`).

Calls name a place by a path, which is a zero-terminated text and starts at the
root or at the home directory. On the way `.` stays, `..` goes up, and links are
followed, forty at most (`Disk.locate`).
-/

namespace PageServer

/-- The names that lead from the root to a place of a disk. -/
abbrev DiskPlace := List Bytes

instance DiskPlace.transCmp : Std.TransCmp (compare : DiskPlace → DiskPlace → Ordering) :=
  inferInstance

/-- What is at a place. -/
inductive DiskEntry
  | directory (modified : Int)
  | file (content : Bytes) (modified : Int)
  | link (target : Bytes)
  deriving DecidableEq, Repr

/-- Why a call of the disk fails. -/
inductive DiskError
  | missing
  | alreadyThere
  | notDirectory
  | isDirectory
  | badArgument
  | nameTooLong
  | tooManyLinks
  deriving DecidableEq, Repr

namespace DiskError

/-- The error in words. -/
def message : DiskError → Bytes
  | missing => "No such file or directory"
  | alreadyThere => "File exists"
  | notDirectory => "Not a directory"
  | isDirectory => "Is a directory"
  | badArgument => "Invalid argument"
  | nameTooLong => "File name too long"
  | tooManyLinks => "Too many levels of symbolic links"

/-- The number of the error. -/
def code : DiskError → Nat
  | missing => 2
  | alreadyThere => 17
  | notDirectory => 20
  | isDirectory => 21
  | badArgument => 22
  | nameTooLong => 36
  | tooManyLinks => 40

/-- Whether the error says that there is nothing of that name. -/
def saysAbsent (e : DiskError) : Bool := e == missing || e == notDirectory

end DiskError

/-- An order in which the names in directories are read. -/
structure ReadOrder where
  arrange : DiskPlace → List Bytes → List Bytes
  perm : ∀ directory names, (arrange directory names).Perm names

/-- The names are read in the order in which they are kept. -/
def ReadOrder.kept : ReadOrder := ⟨fun _ names => names, fun _ names => .refl names⟩

/-- A disk. -/
structure Disk where
  entries : Table (compare : DiskPlace → DiskPlace → Ordering) DiskEntry := .empty
  /-- Where relative paths start. -/
  home : DiskPlace := []
  readOrder : ReadOrder := .kept

namespace Disk

/-- What is at a place; the root is always a directory. -/
def entry? (d : Disk) (place : DiskPlace) : Option DiskEntry :=
  match place with
  | [] => some ((d.entries.get? []).getD (.directory 0))
  | _ => d.entries.get? place

/-- The disk with an entry put at a place. -/
def put (d : Disk) (place : DiskPlace) (entry : DiskEntry) : Disk :=
  { d with entries := d.entries.insert place entry }

/-- The disk with the directories on the way from a place through names. -/
def makeWay (d : Disk) (way : DiskPlace) : List Bytes → Disk
  | [] => d
  | name :: more =>
    let d := if (d.entry? (way ++ [name])).isSome then d else d.put (way ++ [name]) (.directory 0)
    d.makeWay (way ++ [name]) more

/-- The disk with an entry put at a place, and the directories on the way to
    it. -/
def putDeep (d : Disk) (place : DiskPlace) (entry : DiskEntry) : Disk :=
  (d.makeWay [] place.dropLast).put place entry

/-! ### Paths -/

/-- The longest name of an entry. -/
def maxName : Nat := 255

/-- The longest path. -/
def maxPath : Nat := 4095

/-- How many links a path may lead through. -/
def maxLinks : Nat := 40

/-- Where a path leads. -/
inductive Spot
  | found (place : DiskPlace) (entry : DiskEntry)
  /-- The directory is there, but no entry of that name. With a slash behind it
      the name can only be that of a directory. -/
  | absent (directory : DiskPlace) (name : Bytes) (slashed : Bool)
  deriving DecidableEq, Repr

/-- The components of a path. A slash at the end leaves an empty one. -/
def components (path : Bytes) : List Bytes := path.splitOn Byte.slash

/-- Whether a path starts at the root. -/
def isAbsolute (path : Bytes) : Bool := path.head? == some Byte.slash

/-- The place that a component leads to from a place, if it is no link. -/
def stepTo (place : DiskPlace) (name : Bytes) : DiskPlace :=
  if name.isEmpty || name == "." then place
  else if name == ".." then place.dropLast
  else place ++ [name]

/-- The place that a path names if there are no links. -/
def namedPlace (d : Disk) (path : Bytes) : DiskPlace :=
  (components path).foldl stepTo (if isAbsolute path then [] else d.home)

/-- Goes from a directory along components. A link to be followed is passed on,
    as the directory and the components to go on with. -/
def walkWith (d : Disk) (followLast : Bool)
    (onLink : DiskPlace → List Bytes → Except DiskError Spot) :
    DiskPlace → List Bytes → Except DiskError Spot
  | here, [] => .ok (.found here ((d.entry? here).getD (.directory 0)))
  | here, name :: rest =>
    if name.isEmpty || name == "." then walkWith d followLast onLink here rest
    else if name == ".." then walkWith d followLast onLink here.dropLast rest
    else if maxName < name.length then .error .nameTooLong
    else
      match d.entry? (here ++ [name]) with
      | none =>
        if rest.all (·.isEmpty) then .ok (.absent here name (!rest.isEmpty)) else .error .missing
      | some (.directory _) => walkWith d followLast onLink (here ++ [name]) rest
      | some (.file content modified) =>
        if rest.isEmpty then .ok (.found (here ++ [name]) (.file content modified))
        else .error .notDirectory
      | some (.link target) =>
        if rest.isEmpty && !followLast then .ok (.found (here ++ [name]) (.link target))
        else onLink (if isAbsolute target then [] else here) (components target ++ rest)

/-- Goes from a directory along components, through at most so many links. -/
def walk (d : Disk) (followLast : Bool) : Nat → DiskPlace → List Bytes → Except DiskError Spot
  | 0 => d.walkWith followLast fun _ _ => .error .tooManyLinks
  | n + 1 => d.walkWith followLast (walk d followLast n)

/-- Where a path leads; a link at its end is followed if so wished. -/
def locate (d : Disk) (followLast : Bool) (path : Bytes) : Except DiskError Spot :=
  let path := path.toNul
  if path.isEmpty then .error .missing
  else if maxPath < path.length then .error .nameTooLong
  else d.walk followLast maxLinks (if isAbsolute path then [] else d.home) (components path)

/-- The place and the entry that a path leads to. -/
def find (d : Disk) (followLast : Bool) (path : Bytes) : Except DiskError (DiskPlace × DiskEntry) :=
  match d.locate followLast path with
  | .error e => .error e
  | .ok (.absent _ _ _) => .error .missing
  | .ok (.found place entry) => .ok (place, entry)

/-! ### Calls -/

/-- The entry at the end of a path, links followed. -/
def status (d : Disk) (path : Bytes) : Except DiskError DiskEntry := (·.2) <$> d.find true path

/-- The entry at the end of a path, which may be a link. -/
def linkStatus (d : Disk) (path : Bytes) : Except DiskError DiskEntry := (·.2) <$> d.find false path

/-- The name of a place in a directory, if it is directly in it. -/
def nameIn? (directory place : DiskPlace) : Option Bytes :=
  if place.length = directory.length + 1 ∧ directory.isPrefixOf place then place.getLast? else none

/-- The names in a directory, in their order. -/
def names (d : Disk) (directory : DiskPlace) : List Bytes := d.entries.keys.filterMap (nameIn? directory)

/-- The names in a directory, as they are read. -/
def namesRead (d : Disk) (directory : DiskPlace) : List Bytes :=
  d.readOrder.arrange directory (d.names directory)

/-- A path without the slashes that end it. -/
def dropSlashes (path : Bytes) : Bytes := (path.reverse.dropWhile (· == Byte.slash)).reverse

/-- Makes a directory. -/
def makeDirectory (d : Disk) (path : Bytes) : Except DiskError Disk :=
  let path := path.toNul
  if path.all (· == Byte.slash) ∧ ¬ path.isEmpty then .error .alreadyThere
  else if maxPath < path.length then .error .nameTooLong
  else
    match d.locate false (dropSlashes path) with
    | .error e => .error e
    | .ok (.found _ _) => .error .alreadyThere
    | .ok (.absent directory name _) => .ok (d.put (directory ++ [name]) (.directory 0))

/-- Opens a file for writing, and makes it if it is not there. -/
def openForWriting (d : Disk) (path : Bytes) : Except DiskError (DiskPlace × Disk) :=
  match d.locate true path with
  | .error e => .error e
  | .ok (.found place (.file _ _)) => .ok (place, d)
  | .ok (.found _ _) => .error .isDirectory
  | .ok (.absent directory name slashed) =>
    if slashed then .error .isDirectory
    else .ok (directory ++ [name], d.put (directory ++ [name]) (.file [] 0))

/-- Writes bytes into a file. No bytes leave the file as it is. -/
def write (d : Disk) (place : DiskPlace) (offset : Nat) (data : Bytes) : Disk :=
  match d.entry? place with
  | some (.file content modified) =>
    if data.isEmpty then d else d.put place (.file (content.overwrite offset data) modified)
  | _ => d

/-- Up to so many bytes of an open file from an offset on. The range must end
    within signed numbers of sixty-four bits. -/
def read (d : Disk) (place : DiskPlace) (offset length : Nat) : Except DiskError Bytes :=
  if int64Max < offset + length then .error .badArgument
  else
    match d.entry? place with
    | some (.file content _) => .ok ((content.drop offset).take length)
    | some (.directory _) => .error .isDirectory
    | _ => .ok []

/-- How many bytes an entry has. A directory has those of its own block. -/
def sizeOf (entry : DiskEntry) : Nat :=
  match entry with
  | .directory _ => 4096
  | .file content _ => content.length
  | .link target => target.length

end Disk

end PageServer
