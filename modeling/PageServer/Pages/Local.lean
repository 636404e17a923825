import PageServer.Files.Local
import PageServer.Pages.Store

/-!
# Local pages

A page store that keeps one file for each file id in a directory of the disk.
The page with index `i` stands in it from byte `i * pageSize` on, and what was
never written in front of it is filled with zeros. A page is there as soon as
its file reaches beyond its first byte.
-/

namespace PageServer

/-- The pages in a directory of the disk. -/
structure LocalPages where
  root : Bytes
  pageSize : Int
  deriving DecidableEq, Repr

namespace LocalPages

/-- The paths of the directories on the way to a path, and the path itself. -/
def stages (path : Bytes) : List Bytes :=
  ((List.range path.length).filter fun i => path[i]? == some Byte.slash).map (path.take ·) ++ [path]

/-- Makes the directories that are missing on the way to a path, up to the first
    that cannot be made. The error is that of the last call that failed. -/
def makeAll (d : Disk) : Option DiskError → List Bytes → Option DiskError × Bool × Disk
  | last, [] => (last, true, d)
  | last, path :: rest =>
    if path.isEmpty then makeAll d last rest
    else
      match d.makeDirectory path with
      | .ok d' => makeAll d' last rest
      | .error .alreadyThere => makeAll d (some .alreadyThere) rest
      | .error e => (some e, false, d)

/-- Makes a directory and those on the way to it. -/
def makeRoot (d : Disk) (path : Bytes) : Except DiskError Unit × Disk :=
  match makeAll d none (stages path) with
  | (last, false, d') => (.error (last.getD .missing), d')
  | (last, true, d') =>
    match d'.status path with
    | .ok (.directory _) => (.ok (), d')
    | .ok _ => (.error (last.getD .missing), d')
    | .error e => (.error e, d')

/-- The pages in a directory, which is made if it is missing. -/
def create (root : Bytes) (pageSize : Int) : Act Disk LocalPages := fun d =>
  let root := LocalFiles.trimRoot root
  if pageSize ≤ 0 then
    ⟨.error (.pageStore ("page size must be positive, got " ++ Numeral.ofInt pageSize)), d, []⟩
  else
    match makeRoot d root with
    | (.error e, d') =>
      ⟨.error (.pageStore ("cannot create page store root " ++ root ++ ": " ++ e.message)), d', []⟩
    | (.ok (), d') =>
      ⟨.ok ⟨root, pageSize⟩, d',
        [⟨.info, "LocalPageStore: root=" ++ root ++ " page_size=" ++ Numeral.ofInt pageSize⟩]⟩

/-- The path of the file with the pages of a file id. -/
def pathFor (p : LocalPages) (id : Bytes) : Bytes := p.root ++ Byte.slash :: id

/-- The first byte of a page in its file; none for a page that no file
    reaches. -/
def base? (p : LocalPages) (index : Int) : Option Int :=
  if index < 0 ∨ int64Max / p.pageSize < index then none else some (index * p.pageSize)

/-- Where a page may be written: the first byte for it. -/
def baseFor (p : LocalPages) (id : Bytes) (index : Int) (data : Bytes) : Except Failure Int :=
  let size : Int := data.length
  if !isFileId id then .error (.pageStore ("invalid file id '" ++ id ++ "'"))
  else if index < 0 then .error (.pageStore ("negative page index " ++ Numeral.ofInt index))
  else if p.pageSize < size then
    .error (.pageStore
      ("page of " ++ Numeral.ofInt size ++ " bytes exceeds page size " ++ Numeral.ofInt p.pageSize))
  else
    match p.base? index with
    | none => .error (.pageStore ("page index " ++ Numeral.ofInt index ++ " is out of range"))
    | some base =>
      if int64Max - base < size then
        .error (.pageStore ("page index " ++ Numeral.ofInt index ++ " is out of range"))
      else .ok base

/-- Writes a page. A file that cannot be opened is recorded. -/
def write (p : LocalPages) (id : Bytes) (index : Int) (data : Bytes) : Act Disk Bool := fun d =>
  match p.baseFor id index data with
  | .error e => ⟨.error e, d, []⟩
  | .ok base =>
    match d.openForWriting (p.pathFor id) with
    | .error e =>
      ⟨.ok false, d,
        [⟨.error, "LocalPageStore: open " ++ p.pathFor id ++ " failed: " ++ e.message⟩]⟩
    | .ok (place, d') => ⟨.ok true, d'.write place base.toNat data, []⟩

/-- The first byte of a page in its file, if the file reaches beyond it. -/
def find (p : LocalPages) (d : Disk) (id : Bytes) (index : Int) : Option Int :=
  match p.base? index with
  | none => none
  | some base =>
    if !isFileId id then none
    else
      match d.status (p.pathFor id) with
      | .error _ => none
      | .ok entry => if (Disk.sizeOf entry : Int) ≤ base then none else some base

/-- The page store, on a state that has the disk as a part. -/
def store {σ : Type} (p : LocalPages) (part : Part σ Disk) : PageStore σ where
  pageSize := p.pageSize
  write id index data := Act.within part (p.write id index data)
  locate id index := fun s =>
    ⟨.ok ((p.find (part.get s) id index).map fun base =>
      ⟨Byte.slash :: id, base, some ((LocalFiles.ofRoot p.root).onDisk.within part)⟩), s, []⟩

end LocalPages

end PageServer
