import Mathlib.Logic.Function.Basic
import PageServer.Proofs.Files.Tree
import PageServer.Proofs.Load.Program
import PageServer.Proofs.Pages.Local

/-!
# Files copied into pages

An *errand* is the load of a path that a branch of local files is shown at, into local pages
(`Errand`). While it is run, the branch goes on being shown, and the page files of its files
hold what has been loaded of them (`Errand.Stage`). What else happens is of no matter
(`Errand.Calm`).

Page by page a file is copied as it is (`Errand.loadPages_yields`,
`Errand.loadFile_yields`), and so are all files that are to be loaded, one after the other
(`Errand.loadEach_yields`).
-/

namespace PageServer

open LocalFiles

/-! ### Ids of files -/

theorem isFileId_of_isHexDigit {id : Bytes} (hne : id ≠ []) (h : ∀ b ∈ id, b.isHexDigit) :
    isFileId id := by
  refine isFileId_iff.2 ⟨hne, ?_, fun hslash => ?_, fun hup => ?_⟩
  · rintro rfl
    exact absurd (h 46 List.mem_cons_self) (by decide)
  · exact absurd (h _ hslash) (by decide)
  · exact absurd (h 46 (hup.subset List.mem_cons_self)) (by decide)

namespace Load

theorem isHexDigit_of_mem_fileId {backing : Bytes} : ∀ b ∈ fileId backing, b.isHexDigit :=
  fun _ => Numeral.isHexDigit_of_mem_hexDigits

theorem length_fileId (backing : Bytes) : (fileId backing).length = 16 :=
  Numeral.length_hexDigits 16 _

theorem isFileId_fileId (backing : Bytes) : isFileId (fileId backing) := by
  refine isFileId_of_isHexDigit (fun hnil => ?_) isHexDigit_of_mem_fileId
  have hlength := length_fileId backing
  rw [hnil] at hlength
  cases hlength

theorem toNul_fileId (backing : Bytes) : (fileId backing).toNul = fileId backing :=
  Bytes.toNul_of_not_mem fun hzero => absurd (isHexDigit_of_mem_fileId 0 hzero) (by decide)

/-! ### Pages of files -/

/-- The pages of a file are those that start in front of its end. -/
theorem lt_pageCount_iff (length : Int) {size : Int} (hsize : 0 < size) (i : Nat) :
    i < Job.pageCount length size ↔ i * size < length := by
  rw [Job.pageCount, if_neg (Int.not_le.2 hsize), Int.lt_toNat, Int.lt_iff_add_one_le,
    Int.le_ediv_iff_mul_le hsize, Int.add_mul, Int.one_mul]
  omega

/-! ### Errands -/

/-- The load of a path. -/
structure Errand where
  /-- The directory of the disk that files are shown from. -/
  root : Bytes
  /-- Where they are loaded to. -/
  pages : LocalPages
  path : Bytes
  options : LoadOptions
  /-- What the path leads to. -/
  top : Branch
  /-- The place of the directory of the pages. -/
  store : DiskPlace

namespace Errand

/-- The files that are shown. -/
def files (e : Errand) : LocalFiles := .ofRoot e.root

/-- The workplace that the errand is run at. -/
def workplace (e : Errand) : Workplace Installation :=
  ⟨e.files.onDisk.within Installation.diskPart, e.pages.store Installation.diskPart,
    Installation.servicePart⟩

theorem apart (e : Errand) : e.workplace.Apart := apart_local e.files e.pages

/-- The id of the pages of a file. -/
@[irreducible]
def idOf (e : Errand) (x : FoundFile) : Bytes := fileId (e.files.resolve x.path)

/-- The place of the pages of a file. -/
def pagesOf (e : Errand) (x : FoundFile) : DiskPlace := e.store ++ [e.idOf x]

/-- The job of the path, this far. -/
def job (e : Errand) (t : Tally) : Job := { path := e.path, options := e.options, tally := t }

/-- All files that the path leads to are loaded as a whole, and there is room for them:
    numbers of sixty-four bits and the paths of the disk go far enough, and neither do page
    files come in each other's way nor in that of the files. -/
structure Feasible (e : Errand) : Prop where
  normalize_eq : normalize e.path = .ok e.top.path
  submits : e.options.operation.getD .submit = .submit
  loads_all : e.options.filter.getD [] = []
  loads_bytes : e.options.metadataOnly = false
  loads_again : e.options.skipExisting = false
  pageSize_pos : 0 < e.pages.pageSize
  pageSize_le : e.pages.pageSize ≤ Job.maxPage
  ends : ∀ x ∈ e.top.files, x.content.length + e.pages.pageSize ≤ int64Max
  distinct : (e.top.files.map e.idOf).Nodup
  apart : ∀ x ∈ e.top.files, ¬ e.top.place <+: e.pagesOf x
  fits : e.pages.root.length + 17 ≤ Disk.maxPath

/-- The page files hold these contents on the disk. -/
structure Holds (e : Errand) (kept : Bytes → Bytes) (d : Disk) : Prop where
  rootedAt : e.pages.RootedAt d e.store
  isFile : ∀ file ∈ e.top.files, ∀ entry, d.entry? (e.pagesOf file) = some entry →
    ∃ content modified, entry = .file content modified
  contentAt : ∀ file ∈ e.top.files, d.contentAt (e.pagesOf file) = kept (e.idOf file)

/-- The errand is run: the branch is shown, the page files hold these contents, and the job
    has this tally. -/
structure Stage (e : Errand) (kept : Bytes → Bytes) (t : Tally) (x : Installation) : Prop
    extends Holds e kept x.disk where
  shows : e.files.Shows x.disk e.top
  job_eq : x.service.jobs.get? e.path = some (e.job t)

/-- From one state to the other, nothing happened to the errand. -/
def Calm (e : Errand) (x y : Installation) : Prop := ∀ kept t, e.Stage kept t x → e.Stage kept t y

/-- From one disk to the other, neither the files changed nor what the page files hold. -/
structure Spares (e : Errand) (d d' : Disk) : Prop where
  shows : e.files.Shows d e.top → e.files.Shows d' e.top
  holds : ∀ kept, e.Holds kept d → e.Holds kept d'

variable {e : Errand} {kept : Bytes → Bytes} {t : Tally} {x : Installation} {file : FoundFile}

theorem fileId_statusFor (e : Errand) (file : FoundFile) :
    fileId (e.files.statusFor file).backing = e.idOf file := by
  rw [idOf]
  rfl

theorem isFileId_idOf (e : Errand) (file : FoundFile) : isFileId (e.idOf file) := by
  rw [idOf]
  exact isFileId_fileId _

theorem toNul_idOf (e : Errand) (file : FoundFile) : (e.idOf file).toNul = e.idOf file := by
  rw [idOf, toNul_fileId]

theorem Feasible.fits_idOf (hf : e.Feasible) (file : FoundFile) : e.pages.Fits (e.idOf file) := by
  have hroom := hf.fits
  have hlength : (e.idOf file).length = 16 := by rw [idOf, length_fileId]
  obtain ⟨hne, hdot, -, hup⟩ := isFileId_iff.1 (e.isFileId_idOf file)
  refine ⟨⟨hne, hdot, fun heq => hup (heq ▸ List.infix_rfl)⟩, ?_, by omega⟩
  rw [hlength]
  decide

/-- There is nothing in the page files where there are none. -/
theorem holds_of_emptyAt {d : Disk} (h : e.pages.EmptyAt d e.store) : e.Holds (fun _ => []) d where
  rootedAt := h.toRootedAt
  isFile file _ entry hentry := by
    rw [pagesOf, h.entry?_eq] at hentry
    cases hentry
  contentAt file _ := by rw [pagesOf, Disk.contentAt, h.entry?_eq]

/-- The content of a page file changes. -/
theorem Holds.rewritten {d d' : Disk} {content : Bytes} (h : e.Holds kept d)
    (hd : Disk.Rewritten d d' (e.pagesOf file) content) :
    e.Holds (Function.update kept (e.idOf file) content) d' where
  rootedAt := h.rootedAt.rewritten hd
  isFile := by
    intro other hother entry hentry
    by_cases heq : e.pagesOf other = e.pagesOf file
    · obtain ⟨modified, hnew⟩ := hd.entry?_eq
      rw [heq] at hentry
      exact ⟨content, modified, Option.some.inj (hentry.symm.trans hnew)⟩
    · exact h.isFile other hother entry ((hd.other _ heq).symm.trans hentry)
  contentAt := by
    intro other hother
    have hplace : e.pagesOf other = e.pagesOf file ↔ e.idOf other = e.idOf file := by
      simp [pagesOf]
    rw [hd.contentAt_eq, Function.update_apply, h.contentAt other hother]
    simp only [hplace]

theorem Stage.rewritten (hf : e.Feasible) (h : e.Stage kept t x) (hfile : file ∈ e.top.files)
    {d : Disk} {content : Bytes} (hd : Disk.Rewritten x.disk d (e.pagesOf file) content) :
    e.Stage (Function.update kept (e.idOf file) content) t { x with disk := d } where
  toHolds := h.toHolds.rewritten hd
  shows := h.shows.rewritten hd (hf.apart file hfile)
  job_eq := h.job_eq

theorem Spares.refl (e : Errand) (d : Disk) : e.Spares d d := ⟨id, fun _ => id⟩

/-- The errand goes on where the disk spares it and the job is the same. -/
theorem Stage.spared {y : Installation} (h : e.Stage kept t x) (hdisk : e.Spares x.disk y.disk)
    (hjob : y.service.jobs.get? e.path = some (e.job t)) : e.Stage kept t y where
  toHolds := hdisk.holds kept h.toHolds
  shows := hdisk.shows h.shows
  job_eq := hjob

/-! ### Calls -/

section Calls

variable {α : Type}

/-- The program yields the postcondition when it is run for the errand. -/
abbrev Yields (e : Errand) (prog : Program α) (x : Installation) (Q : α → Installation → Prop) :
    Prop :=
  prog.Yields (e.workplace.perform e.path) e.Calm x Q

theorem yields_call (h : e.Stage kept t x) {c : Call} {Q : c.Reply → Installation → Prop}
    (hQ : ∀ y, e.Stage kept t y → (e.workplace.perform e.path c).Yields y Q) :
    e.Yields (.ofCall c) x Q :=
  Program.yields_call fun y hcalm => hQ y (hcalm kept t h)

/-- The errand is not told to stop. -/
theorem yields_isStopped (h : e.Stage kept t x) {Q : Bool → Installation → Prop}
    (hQ : ∀ y, e.Stage kept t y → Q false y) : e.Yields (.ofCall .isStopped) x Q := by
  refine yields_call h fun y hy => ⟨false, ?_, hQ y hy⟩
  show Except.ok (((y.service.jobs.get? e.path).map (·.cancelled)).getD true) = _
  rw [hy.job_eq]
  rfl

theorem yields_update (h : e.Stage kept t x) (f : Tally → Tally)
    {Q : Unit → Installation → Prop} (hQ : ∀ y, e.Stage kept (f t) y → Q () y) :
    e.Yields (.ofCall (.update f)) x Q := by
  refine yields_call h fun y hy => ⟨(), rfl, hQ _ { hy with job_eq := ?_ }⟩
  show ((y.service.change e.path _).jobs.get? e.path) = _
  rw [Service.get?_change, if_pos rfl, hy.job_eq]
  rfl

/-- Calls that only look at the disk. -/
theorem yields_look (h : e.Stage kept t x) {c : Call} {v : c.Reply}
    (hcall : ∀ y, e.Stage kept t y → (e.workplace.perform e.path c y).result = .ok v ∧
      (e.workplace.perform e.path c y).state = y)
    {Q : c.Reply → Installation → Prop} (hQ : ∀ y, e.Stage kept t y → Q v y) :
    e.Yields (.ofCall c) x Q := by
  refine yields_call h fun y hy => ?_
  obtain ⟨hresult, hstate⟩ := hcall y hy
  refine ⟨v, hresult, ?_⟩
  rw [hstate]
  exact hQ y hy

/-- The status of what the path leads to. -/
theorem yields_status (h : e.Stage kept t x) {path : Bytes} {b : Branch}
    (hb : e.top.Within b) (hpath : normalize path = .ok b.path)
    {Q : FileStatus → Installation → Prop}
    (hQ : ∀ y, e.Stage kept t y → Q (e.files.statusAt b) y) : e.Yields (.ofCall (.status path)) x Q :=
  yields_look (c := .status path) (v := e.files.statusAt b) h
    (fun _ hy => ⟨(hy.shows.within hb).status_eq hpath, rfl⟩) hQ

theorem yields_list (h : e.Stage kept t x) {b : Branch} (hb : e.top.Within b)
    (hfolder : b.isFolder) {Q : List FileStatus → Installation → Prop}
    (hQ : ∀ y, e.Stage kept t y → Q (b.children.map e.files.statusAt) y) :
    e.Yields (.ofCall (.list b.path)) x Q := by
  refine yields_look h (fun y hy => ?_) hQ
  have hshows := hy.shows.within hb
  obtain ⟨hlist, hstate⟩ := hshows.list_directory hfolder
  rw [hshows.reachable_eq] at hlist
  refine ⟨hlist, ?_⟩
  show { y with disk := (e.files.onDisk.list b.path y.disk).state } = y
  rw [hstate]

theorem yields_openFile (h : e.Stage kept t x) {b : Branch} (hb : e.top.Within b)
    {Q : OpenFile → Installation → Prop} (hQ : ∀ y, e.Stage kept t y → Q ⟨b.path, b.place⟩ y) :
    e.Yields (.ofCall (.openFile b.path)) x Q :=
  yields_look (c := .openFile b.path) (v := ⟨b.path, b.place⟩) h
    (fun _ hy => ⟨(hy.shows.within hb).openFile_eq, rfl⟩) hQ

/-- Bytes of a file are read as they are. -/
theorem yields_read (h : e.Stage kept t x) {path : Bytes} {place : DiskPlace} {content : Bytes}
    {modified : Int} (hb : e.top.Within ⟨path, place, .file content modified⟩)
    {position length : Int} (hposition : 0 ≤ position) (hlength : 0 < length)
    (hend : position + length ≤ content.length) (hcontent : (content.length : Int) ≤ int64Max)
    {Q : Option Bytes → Installation → Prop}
    (hQ : ∀ y, e.Stage kept t y →
      Q (some ((content.drop position.toNat).take length.toNat)) y) :
    e.Yields (.ofCall (.read ⟨path, place⟩ position length)) x Q := by
  refine yields_look h (fun y hy => ⟨?_, rfl⟩) hQ
  have hentry := (hy.shows.within hb).on.entry?_eq
  show LocalFiles.read y.disk ⟨path, place⟩ position length = _
  obtain ⟨b, bytes, hcons⟩ :
      ∃ b bytes, (content.drop position.toNat).take length.toNat = b :: bytes :=
    List.exists_cons_of_length_pos (by rw [List.length_take, List.length_drop]; omega)
  have hread : y.disk.read place position.toNat length.toNat = .ok (b :: bytes) := by
    rw [Disk.read, if_neg (by omega), hentry, ← hcons]
    rfl
  rw [LocalFiles.read, if_neg (by omega), if_neg (by omega), hread, hcons]

/-- A page is written into the page file of its file. -/
theorem yields_writePage (hf : e.Feasible) (h : e.Stage kept t x) (hfile : file ∈ e.top.files)
    {index base : Int} {data : Bytes} (hdata : data ≠ [])
    (hbase : e.pages.baseFor (e.idOf file) index data = .ok base)
    {Q : Bool → Installation → Prop}
    (hQ : ∀ y, e.Stage (Function.update kept (e.idOf file)
      ((kept (e.idOf file)).overwrite base.toNat data)) t y → Q true y) :
    e.Yields (.ofCall (.writePage (e.idOf file) index data)) x Q := by
  refine yields_call h fun y hy => ?_
  have hid := e.toNul_idOf file
  obtain ⟨hresult, htaken⟩ := hy.rootedAt.write_of_fits hbase (hid.symm ▸ hf.fits_idOf file)
    (by rw [hid]; exact hy.isFile file hfile)
  have hrewritten := htaken.rewritten
  rw [hid, if_neg hdata, ← pagesOf, hy.contentAt file hfile] at hrewritten
  have hperform : e.workplace.perform e.path (.writePage (e.idOf file) index data) =
      Act.within Installation.diskPart (e.pages.write (e.idOf file) index data) := rfl
  rw [hperform]
  exact Act.yields_within ⟨true, hresult, hQ _ (hy.rewritten hf hfile hrewritten)⟩

end Calls

/-! ### Copies -/

/-- The bytes of a page of a file. -/
def pageOf (content : Bytes) (size i : Nat) : Bytes := (content.drop (i * size)).take size

theorem length_pageOf (content : Bytes) (size i : Nat) :
    (pageOf content size i).length = min size (content.length - i * size) := by
  rw [pageOf, List.length_take, List.length_drop]

/-- The bytes of a page, cut off at the end of the content. -/
theorem pageOf_eq_take (content : Bytes) (size i : Nat) :
    (content.drop (i * size)).take (min (size : Int) (content.length - i * size)).toNat =
      pageOf content size i := by
  rw [pageOf, List.take_eq_take_iff, List.length_drop]
  omega

/-- One page is behind the pages before. -/
theorem take_append_pageOf (content : Bytes) (size i : Nat) :
    content.take (i * size) ++ pageOf content size i = content.take ((i + 1) * size) := by
  rw [pageOf, ← List.take_add, Nat.add_mul, Nat.one_mul]

/-- The pages before, with one more page. -/
theorem overwrite_pageOf {content : Bytes} {size i : Nat} (hlt : i * size < content.length) :
    Bytes.overwrite (content.take (i * size)) (i * size) (pageOf content size i) =
      content.take ((i + 1) * size) := by
  have hlength : (content.take (i * size)).length = i * size := by
    rw [List.length_take, Nat.min_eq_left (Nat.le_of_lt hlt)]
  have happend := Bytes.overwrite_length (content.take (i * size)) (pageOf content size i)
  rw [hlength] at happend
  rw [happend, take_append_pageOf]

variable {place : DiskPlace} {size i : Nat}

/-- A page of a file is read. -/
theorem yields_readPage (h : e.Stage kept t x) (hpos : 0 < size)
    (hb : e.top.Within ⟨file.path, place, .file file.content file.modified⟩)
    (hlt : i * size < file.content.length) (hcontent : (file.content.length : Int) ≤ int64Max)
    {Q : Option Bytes → Installation → Prop}
    (hQ : ∀ y, e.Stage kept t y → Q (some (pageOf file.content size i)) y) :
    e.Yields (.ofCall (.read ⟨file.path, place⟩ (i * size)
      (min size ((e.files.statusFor file).length - i * size)))) x Q := by
  have hlength : (e.files.statusFor file).length = file.content.length := rfl
  have hstart : ((i : Int) * size).toNat = i * size := by rw [← Nat.cast_mul, Int.toNat_natCast]
  refine yields_read h hb (by omega) (by omega) (by omega) hcontent fun y hy => ?_
  rw [hstart, hlength, pageOf_eq_take]
  exact hQ y hy

/-- A page of a file is written behind those that were written before. -/
theorem yields_writeNext (hf : e.Feasible) (hsize : e.pages.pageSize = size)
    (h : e.Stage kept t x) (hfile : file ∈ e.top.files)
    (hkept : kept (e.idOf file) = file.content.take (i * size))
    (hlt : i * size < file.content.length) {Q : Bool → Installation → Prop}
    (hQ : ∀ y, e.Stage (Function.update kept (e.idOf file)
      (file.content.take ((i + 1) * size))) t y → Q true y) :
    e.Yields (.ofCall (.writePage (e.idOf file) i (pageOf file.content size i))) x Q := by
  have hpos := hf.pageSize_pos
  have hends := hf.ends file hfile
  have hlength := length_pageOf file.content size i
  have hbase : e.pages.baseFor (e.idOf file) i (pageOf file.content size i) = .ok (i * size) :=
    (LocalPages.baseFor_eq_ok_iff hpos).2
      ⟨e.isFileId_idOf file, by omega, by omega, by rw [hsize], by omega⟩
  have hne : pageOf file.content size i ≠ [] := List.ne_nil_of_length_pos (by omega)
  refine yields_writePage hf h hfile hne hbase fun y hy => hQ y ?_
  rwa [hkept, ← Nat.cast_mul, Int.toNat_natCast, overwrite_pageOf hlt] at hy

/-- Pages are copied one after the other, up to the end of the file. -/
theorem loadPages_yields (hf : e.Feasible) (hsize : e.pages.pageSize = size)
    (hfile : file ∈ e.top.files)
    (hb : e.top.Within ⟨file.path, place, .file file.content file.modified⟩) (n : Nat)
    (h : e.Stage kept t x) (hkept : kept (e.idOf file) = file.content.take (i * size))
    (hcount : i + n = Job.pageCount file.content.length size) {loaded : Int}
    (hloaded : loaded = (min (i * size) file.content.length : Nat)) :
    e.Yields (Job.loadPages size (e.files.statusFor file) ⟨file.path, place⟩ n i loaded) x
      fun v y => v = some (file.content.length : Int) ∧
        e.Stage (Function.update kept (e.idOf file) file.content)
          { t with bytesLoaded := t.bytesLoaded + (file.content.length - loaded) } y := by
  have hpos : (0 : Int) < size := hsize ▸ hf.pageSize_pos
  have hends := hf.ends file hfile
  have hmore := lt_pageCount_iff file.content.length hpos i
  rw [← Nat.cast_mul, Nat.cast_lt] at hmore
  -- By induction on the pages that are left: what is kept grows by a page each time.
  induction n generalizing i kept t x loaded with
  | zero =>
    have hend : file.content.length ≤ i * size := Nat.le_of_not_lt (mt hmore.2 (by omega))
    rw [Nat.min_eq_right hend] at hloaded
    rw [List.take_of_length_le hend] at hkept
    subst hloaded
    refine Program.yields_pure ⟨rfl, ?_⟩
    rw [← hkept, Function.update_eq_self, Int.sub_self, Int.add_zero]
    exact h
  | succ n ih =>
    have hlt : i * size < file.content.length := hmore.1 (by omega)
    rw [Job.loadPages]
    refine Program.yields_bind (yields_isStopped h fun y hy => ?_)
    rw [if_neg Bool.false_ne_true]
    refine Program.yields_bind (yields_readPage hy (by omega) hb hlt (by omega) fun y hy => ?_)
    dsimp only
    rw [fileId_statusFor]
    refine Program.yields_bind (yields_writeNext hf hsize hy hfile hkept hlt fun y hy => ?_)
    rw [if_pos rfl]
    refine Program.yields_bind (yields_update hy _ fun y hy => ?_)
    have hlength := length_pageOf file.content size i
    have hloaded' : loaded + (pageOf file.content size i).length =
        (min ((i + 1) * size) file.content.length : Nat) := by
      rw [Nat.add_mul]
      omega
    have hnext := lt_pageCount_iff file.content.length hpos (i + 1)
    rw [← Nat.cast_mul, Nat.cast_lt] at hnext
    refine (ih (i := i + 1) hy (Function.update_self ..) (by omega) hloaded' hnext).mono ?_
    rintro v z ⟨hv, hz⟩
    refine ⟨hv, ?_⟩
    have hbytes : t.bytesLoaded + (pageOf file.content size i).length +
        (file.content.length - (loaded + (pageOf file.content size i).length)) =
          t.bytesLoaded + (file.content.length - loaded) := by omega
    rw [Function.update_idem] at hz
    dsimp only at hz
    rwa [hbytes] at hz

/-- As nothing else came in its way, a copy is found to be as long as the file. -/
theorem verifyFile_yields (h : e.Stage kept t x) (hfile : file ∈ e.top.files) :
    e.Yields (Job.verifyFile (e.files.statusFor file) file.content.length) x
      fun _ y => e.Stage kept t y := by
  obtain ⟨place, hb⟩ := Branch.exists_within hfile
  have hpath := (h.shows.within hb).isCanonical.normalize_eq
  rw [Job.verifyFile]
  have hlength : (e.files.statusAt ⟨file.path, place, .file file.content file.modified⟩).length =
      file.content.length := rfl
  refine Program.yields_bind (yields_status h hb hpath fun y hy => ?_)
  rw [if_neg (not_not.2 hlength)]
  exact Program.yields_pure hy

/-- A file is copied as it is. -/
theorem copyFile_yields (hf : e.Feasible) (h : e.Stage kept t x) (hfile : file ∈ e.top.files)
    (hkept : kept (e.idOf file) = []) :
    e.Yields (Job.copyFile e.options e.pages.pageSize (e.files.statusFor file)) x
      fun _ y => e.Stage (Function.update kept (e.idOf file) file.content)
        { t with bytesLoaded := t.bytesLoaded + file.content.length } y := by
  obtain ⟨size, hsize⟩ := Int.eq_ofNat_of_zero_le (Int.le_of_lt hf.pageSize_pos)
  obtain ⟨place, hb⟩ := Branch.exists_within hfile
  have hheld := hf.pageSize_le
  rw [Job.copyFile]
  refine Program.yields_bind (yields_openFile h hb fun y hy => ?_)
  rw [if_neg (by omega), hsize]
  have hnone : (0 : Int) = (min (0 * size) file.content.length : Nat) := by
    rw [Nat.zero_mul, Nat.zero_min, Nat.cast_zero]
  -- Nothing is kept of the file yet, so all its pages are still to be loaded.
  have hpages := loadPages_yields (i := 0) hf hsize hfile hb
    (Job.pageCount file.content.length size) hy (by rw [hkept, Nat.zero_mul]; rfl)
    (Nat.zero_add _) hnone
  refine Program.yields_bind (hpages.mono ?_)
  rintro v z ⟨rfl, hz⟩
  rw [Int.sub_zero] at hz
  dsimp only
  split
  · exact verifyFile_yields hz hfile
  · exact Program.yields_pure hz

/-- A file is loaded. -/
theorem loadFile_yields (hf : e.Feasible) (h : e.Stage kept t x) (hfile : file ∈ e.top.files)
    (hkept : kept (e.idOf file) = []) :
    e.Yields (Job.loadFile e.options e.pages.pageSize (e.files.statusFor file)) x
      fun _ y => e.Stage (Function.update kept (e.idOf file) file.content)
        { t with bytesLoaded := t.bytesLoaded + file.content.length } y := by
  rw [Job.loadFile, hf.loads_bytes, hf.loads_again, if_neg Bool.false_ne_true,
    if_neg Bool.false_ne_true]
  exact copyFile_yields hf h hfile hkept

/-! ### Many files -/

/-- What the page files hold after files were loaded. -/
def keptOf (e : Errand) (loaded : List FoundFile) (id : Bytes) : Bytes :=
  ((loaded.find? (e.idOf · = id)).map (·.content)).getD []

/-- The tally after files were loaded. -/
def tallyOf (total : Nat) (loaded : List FoundFile) : Tally :=
  { filesTotal := total, filesProcessed := loaded.length,
    bytesLoaded := (loaded.map (·.content.length)).sum }

/-- So many files were found this far, and these were loaded. -/
def Loaded (e : Errand) (total : Nat) (loaded : List FoundFile) (x : Installation) : Prop :=
  e.Stage (e.keptOf loaded) (tallyOf total loaded) x

variable {total : Nat} {loaded found : List FoundFile}

theorem find?_idOf (h : e.idOf file ∉ loaded.map e.idOf) :
    loaded.find? (e.idOf · = e.idOf file) = none := by
  refine List.find?_eq_none.2 fun other hother heq => h ?_
  exact List.mem_map.2 ⟨other, hother, of_decide_eq_true heq⟩

theorem keptOf_of_not_mem (h : e.idOf file ∉ loaded.map e.idOf) :
    e.keptOf loaded (e.idOf file) = [] := by
  rw [keptOf, find?_idOf h]
  rfl

theorem keptOf_snoc (h : e.idOf file ∉ loaded.map e.idOf) :
    e.keptOf (loaded ++ [file]) =
      Function.update (e.keptOf loaded) (e.idOf file) file.content := by
  funext id
  rw [Function.update_apply, keptOf, List.find?_append]
  by_cases hid : id = e.idOf file
  · subst hid
    rw [if_pos rfl, find?_idOf h]
    simp
  · rw [if_neg hid, keptOf]
    simp [Ne.symm hid]

theorem tallyOf_snoc (total : Nat) (loaded : List FoundFile) (file : FoundFile) :
    tallyOf total (loaded ++ [file]) = { tallyOf total loaded with
      bytesLoaded := (tallyOf total loaded).bytesLoaded + file.content.length,
      filesProcessed := (tallyOf total loaded).filesProcessed + 1 } := by
  simp [tallyOf]

/-- Files are loaded one after the other. -/
theorem loadEach_yields (hf : e.Feasible) (h : e.Loaded total loaded x)
    (hfound : ∀ file ∈ found, file ∈ e.top.files)
    (hdistinct : ((loaded ++ found).map e.idOf).Nodup) :
    e.Yields (Job.loadEach e.options e.pages.pageSize (found.map e.files.statusFor)) x
      fun _ y => e.Loaded total (loaded ++ found) y := by
  induction found generalizing loaded x with
  | nil =>
    rw [List.append_nil]
    exact Program.yields_pure h
  | cons file found ih =>
    -- Nothing was kept under the id of the file, since no two files share one.
    have hnew : e.idOf file ∉ loaded.map e.idOf := by
      rw [List.map_append, List.map_cons] at hdistinct
      exact fun hmem => (List.nodup_append'.1 hdistinct).2.2 hmem List.mem_cons_self
    rw [List.map_cons, Job.loadEach]
    refine Program.yields_bind (yields_isStopped h fun y hy => ?_)
    rw [if_neg Bool.false_ne_true]
    have hfile := loadFile_yields hf hy (hfound file List.mem_cons_self) (keptOf_of_not_mem hnew)
    refine Program.yields_bind (Program.yields_recover (hfile.mono fun _ y hy => ?_))
    refine Program.yields_bind (yields_update hy _ fun y hy => ?_)
    have hloaded : e.Loaded total (loaded ++ [file]) y := by
      rw [Loaded, keptOf_snoc hnew, tallyOf_snoc]
      exact hy
    rw [List.append_cons] at hdistinct ⊢
    exact ih hloaded (fun other hother => hfound other (List.mem_cons_of_mem _ hother)) hdistinct

/-- Files are counted and loaded. -/
theorem loadFiles_yields (hf : e.Feasible) (h : e.Loaded total loaded x)
    (hfound : ∀ file ∈ found, file ∈ e.top.files)
    (hdistinct : ((loaded ++ found).map e.idOf).Nodup) :
    e.Yields (Job.loadFiles e.options e.pages.pageSize (found.map e.files.statusFor)) x
      fun _ y => e.Loaded (total + found.length) (loaded ++ found) y := by
  rw [Job.loadFiles]
  refine Program.yields_bind (yields_update h _ fun y hy => ?_)
  refine loadEach_yields hf ?_ hfound hdistinct
  rw [List.length_map] at hy
  exact_mod_cast hy

end Errand

end Load

end PageServer
