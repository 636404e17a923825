import PageServer.Pages.Local
import PageServer.Proofs.Files.Disk

/-!
# The directory of the pages

The pages are in a directory in which there are no links (`LocalPages.RootedAt`): there is
a directory once they are made (`LocalPages.rootedAt_of_create`), and no write puts a link
there (`LocalPages.RootedAt.write`). In such a directory the file of an id is named by the
part of the id that a reader of zero-terminated texts sees
(`LocalPages.RootedAt.locate_pathFor`), and pages are read from the very file that they are
written to (`LocalPages.locate_resolve`).

A write either changes nothing, or it is taken, and then only the file of its id is
changed (`LocalPages.RootedAt.write_cases`, `LocalPages.Taken`). A page is located exactly
if its file reaches beyond its first byte (`LocalPages.find_eq`).
-/

namespace PageServer

/-! ### File ids -/

theorem isFileId_iff {id : Bytes} :
    isFileId id ↔ id ≠ [] ∧ id ≠ "." ∧ Byte.slash ∉ id ∧ ¬ ascii ".." <:+: id := by
  simp only [isFileId, Bool.and_eq_true, Bool.not_eq_true', bne_iff_ne, ne_eq, and_assoc,
    ← Bool.not_eq_true, List.isEmpty_iff, Bytes.contains_iff_infix, List.singleton_infix_iff]

namespace LocalPages

variable {p : LocalPages} {d d' : Disk} {place : DiskPlace} {id other : Bytes} {index base : Int}
  {data : Bytes}

theorem up_ne_of_isFileId (h : isFileId id) : id.toNul ≠ ".." := fun hup =>
  (isFileId_iff.1 h).2.2.2 (hup ▸ id.toNul_prefix.isInfix)

theorem slash_not_mem_of_isFileId (h : isFileId id) : Byte.slash ∉ id.toNul := fun hslash =>
  (isFileId_iff.1 h).2.2.1 (id.toNul_prefix.subset hslash)

/-- The path of an id is canonical. -/
theorem normalize_of_isFileId (h : isFileId id) :
    LocalFiles.normalize (Byte.slash :: id) = .ok (Byte.slash :: id) := by
  obtain ⟨hempty, hdot, hslash, hup⟩ := isFileId_iff.1 h
  have hsplit : (Byte.slash :: id).splitOn Byte.slash = [[], id] := by
    refine LocalFiles.slashed_injective (Bytes.not_mem_splitOn _ _) ?_ ?_
    · simpa using hslash
    · rw [LocalFiles.slashed_splitOn]
      simp [LocalFiles.slashed]
  have hne : id ≠ ".." := fun heq => hup (heq ▸ List.infix_rfl)
  have hcontains : ¬ ([[], id].contains (ascii "..")) = true := by
    simp only [List.contains_eq_mem, List.mem_cons, List.not_mem_nil, or_false, decide_eq_true_eq,
      not_or]
    exact ⟨by decide, hne.symm⟩
  have hfilter : [[], id].filter LocalFiles.isSegment = [id] := by
    simp [LocalFiles.isSegment, hempty, hdot]
  rw [LocalFiles.normalize, hsplit, if_neg hcontains, hfilter]
  simp [LocalFiles.ofSegments]

/-! ### Pages within numbers of sixty-four bits -/

theorem base?_eq (hsize : 0 < p.pageSize) :
    p.base? index =
      if 0 ≤ index ∧ index * p.pageSize ≤ int64Max then some (index * p.pageSize) else none := by
  have hdiv := Int.le_ediv_iff_mul_le (a := index) (b := int64Max) hsize
  rw [base?]
  by_cases h : 0 ≤ index ∧ index * p.pageSize ≤ int64Max
  · rw [if_pos h, if_neg (by omega)]
  · rw [if_neg h, if_pos (by omega)]

/-- Where a page may be written, and which pages may. -/
theorem baseFor_eq_ok_iff (hsize : 0 < p.pageSize) :
    p.baseFor id index data = .ok base ↔
      isFileId id ∧ 0 ≤ index ∧ (data.length : Int) ≤ p.pageSize ∧
        base = index * p.pageSize ∧ base + data.length ≤ int64Max := by
  rw [baseFor, base?_eq hsize]
  constructor
  · intro h
    split at h
    · cases h
    next hid =>
    split at h
    · cases h
    split at h
    · cases h
    split at h
    · cases h
    next hbase =>
    split at h <;> cases h
    split at hbase <;> cases hbase
    exact ⟨by simpa using hid, by omega, by omega, rfl, by omega⟩
  · rintro ⟨hid, hindex, hlength, rfl, hend⟩
    rw [if_neg (by simpa using hid), if_neg (by omega), if_neg (by omega),
      if_pos ⟨hindex, by omega⟩]
    dsimp only
    rw [if_neg (by omega)]

/-! ### The directory -/

/-- The root of the pages is a directory of the disk in which there are no links. -/
structure RootedAt (p : LocalPages) (d : Disk) (place : DiskPlace) : Prop where
  zero_not_mem : 0 ∉ p.root
  trimRoot_eq : LocalFiles.trimRoot p.root = p.root
  find_root : ∃ m, d.find true p.root = .ok (place, .directory m)
  no_link : ∀ name target, d.entry? (place ++ [name]) ≠ some (.link target)

/-- The root of the pages is a directory of the disk in which there is nothing. -/
structure EmptyAt (p : LocalPages) (d : Disk) (place : DiskPlace) : Prop
    extends RootedAt p d place where
  entry?_eq : ∀ name, d.entry? (place ++ [name]) = none

/-- Pages that are made have a root that leads to a directory. -/
theorem create_eq_ok {root : Bytes} {pageSize : Int} (h : (create root pageSize d).result = .ok p) :
    p = ⟨LocalFiles.trimRoot root, pageSize⟩ ∧ 0 < pageSize ∧ ∃ place m,
      (create root pageSize d).state.find true (LocalFiles.trimRoot root) =
        .ok (place, .directory m) := by
  simp only [create] at h ⊢
  split at h
  · cases h
  next hsize =>
  rw [if_neg hsize]
  split at h
  · cases h
  next d' hroot =>
  cases h
  refine ⟨rfl, Int.not_le.1 hsize, ?_⟩
  rw [makeRoot] at hroot
  split at hroot
  · cases hroot
  split at hroot
  · next hstatus =>
    cases hroot
    obtain ⟨place, hfind⟩ := Disk.exists_find_of_status hstatus
    exact ⟨place, _, hfind⟩
  · cases hroot
  · cases hroot

/-- The directory of pages that are made, if there are no links in it. -/
theorem rootedAt_of_create {root : Bytes} {pageSize : Int} (hzero : 0 ∉ root)
    (h : (create root pageSize d).result = .ok p) :
    ∃ place, (∀ name target,
      (create root pageSize d).state.entry? (place ++ [name]) ≠ some (.link target)) →
        p.RootedAt (create root pageSize d).state place := by
  obtain ⟨rfl, -, place, m, hfind⟩ := create_eq_ok h
  exact ⟨place, fun hlink => ⟨LocalFiles.zero_not_mem_trimRoot hzero,
    LocalFiles.trimRoot_trimRoot root, ⟨m, hfind⟩, hlink⟩⟩

/-- Pages are read where they are written, whatever the disk is. -/
theorem locate_resolve (htrim : LocalFiles.trimRoot p.root = p.root) (hid : isFileId id)
    (d : Disk) :
    d.locate true ((LocalFiles.ofRoot p.root).resolve (Byte.slash :: id)) =
      d.locate true (p.pathFor id) := by
  obtain ⟨hempty, -, hslash, -⟩ := isFileId_iff.1 hid
  have hne : ¬ (Byte.slash :: id == [Byte.slash]) = true := by simpa using hempty
  rw [LocalFiles.resolve, if_neg hne, LocalFiles.ofRoot, htrim, pathFor]
  by_cases hroot : p.root = [Byte.slash]
  · rw [if_pos (beq_iff_eq.2 hroot), hroot]
    exact (Disk.locate_slash_slash d hslash).symm
  · rw [if_neg (mt beq_iff_eq.1 hroot)]

/-- A disk on which there is a directory for pages, and nothing else. -/
def freshDisk : Disk := { entries := .ofList [([ascii "pages"], .directory 0)] }

theorem emptyAt_freshDisk (pageSize : Int) :
    EmptyAt ⟨"/pages", pageSize⟩ freshDisk [ascii "pages"] := by
  have hempty : ∀ name, freshDisk.entry? ([ascii "pages"] ++ [name]) = none := fun _ => rfl
  have hzero : 0 ∉ ascii "/pages" := by decide
  exact ⟨⟨hzero, rfl, ⟨0, rfl⟩, fun name target => by rw [hempty]; nofun⟩, hempty⟩

namespace RootedAt

theorem leads (h : p.RootedAt d place) : d.Leads p.root place :=
  let ⟨_, hfind⟩ := h.find_root
  Disk.leads_of_find h.zero_not_mem hfind

/-- The path of an id leads to the name in the directory that is seen of it. -/
theorem locate_pathFor (h : p.RootedAt d place) (hid : isFileId id) :
    d.locate true (p.pathFor id) =
      if Disk.maxPath < p.root.length + 1 + id.toNul.length then .error .nameTooLong
      else d.lookIn place id.toNul := by
  have hseen : (p.pathFor id).toNul = p.root ++ Byte.slash :: id.toNul := by
    rw [pathFor, Bytes.toNul_append, if_neg h.zero_not_mem, Bytes.toNul_cons (by decide)]
  rw [← Disk.locate_toNul, hseen]
  refine Disk.locate_child h.leads ?_ (slash_not_mem_of_isFileId hid) (up_ne_of_isFileId hid)
    (h.no_link _)
  exact fun hmem => (List.mem_append.1 hmem).elim h.zero_not_mem id.not_mem_toNul

/-- A file of the directory may be made or changed. -/
theorem rewritten (h : p.RootedAt d place) {name content : Bytes}
    (hd : Disk.Rewritten d d' (place ++ [name]) content) : p.RootedAt d' place where
  zero_not_mem := h.zero_not_mem
  trimRoot_eq := h.trimRoot_eq
  find_root := by
    obtain ⟨m, hfind⟩ := h.find_root
    exact ⟨m, Disk.find_sameWays hfind hd.sameWays (hd.other _ (by simp))⟩
  no_link other target hlink := by
    by_cases heq : place ++ [other] = place ++ [name]
    · obtain ⟨m, hentry⟩ := hd.entry?_eq
      rw [heq, hentry] at hlink
      cases hlink
    · rw [hd.other _ heq] at hlink
      exact h.no_link other target hlink

end RootedAt

/-! ### Writes -/

/-- There can be a file of the name. -/
def Fits (p : LocalPages) (name : Bytes) : Prop :=
  Disk.IsName name ∧ name.length ≤ Disk.maxName ∧ p.root.length + 1 + name.length ≤ Disk.maxPath

/-- What a write changes when it is taken: the bytes are written into the file of the
    id, and everything else on the disk is as it was. -/
structure Taken (p : LocalPages) (d d' : Disk) (place : DiskPlace) (id : Bytes) (index : Int)
    (data : Bytes) (base : Int) : Prop where
  baseFor_eq : p.baseFor id index data = .ok base
  fits : p.Fits id.toNul
  rewritten : Disk.Rewritten d d' (place ++ [id.toNul])
    (if data = [] then d.contentAt (place ++ [id.toNul])
      else (d.contentAt (place ++ [id.toNul])).overwrite base.toNat data)

theorem isFileId_of_baseFor (h : p.baseFor id index data = .ok base) : isFileId id := by
  rw [baseFor] at h
  split at h
  · cases h
  · next hid => simpa using hid

/-- A write that fails was refused by the page store. -/
theorem pageStore_of_write {e : Failure} (h : (p.write id index data d).result = .error e) :
    ∃ reason, e = .pageStore reason := by
  rw [LocalPages.write] at h
  split at h
  · next hbase =>
    cases h
    rw [baseFor] at hbase
    repeat' split at hbase
    all_goals cases hbase
    all_goals exact ⟨_, rfl⟩
  · split at h <;> cases h

namespace RootedAt

/-- The file of an id is opened where it fits. -/
theorem openForWriting_eq_ok (h : p.RootedAt d place) (hid : isFileId id) {q : DiskPlace}
    (hopen : d.openForWriting (p.pathFor id) = .ok (q, d')) :
    p.Fits id.toNul ∧ q = place ++ [id.toNul] ∧ Disk.Rewritten d d' q (d.contentAt q) := by
  obtain ⟨hd, spot, hlocate, hspot⟩ := Disk.openForWriting_eq_ok hopen
  rw [h.locate_pathFor hid] at hlocate
  split at hlocate
  · cases hlocate
  next hlong =>
  rcases Disk.lookIn_eq_ok hlocate with ⟨rfl, -⟩ | ⟨⟨hempty, hdot, hlength⟩, hends⟩
  · -- The name is the directory itself.
    obtain ⟨m, hfind⟩ := h.find_root
    obtain ⟨-, c, m', hfile⟩ := hspot
    rw [(Disk.find_eq_directory_iff.1 hfind).2.2.2] at hfile
    cases hfile
  refine ⟨⟨⟨hempty, hdot, up_ne_of_isFileId hid⟩, hlength, Nat.le_of_not_lt hlong⟩, ?_, hd⟩
  rcases hends with ⟨e, -, rfl⟩ | ⟨-, rfl⟩ <;> exact hspot.1.symm

/-- A write changes nothing, or it is taken. -/
theorem write_cases (h : p.RootedAt d place) (id : Bytes) (index : Int) (data : Bytes) :
    ((p.write id index data d).result ≠ .ok true ∧ (p.write id index data d).state = d) ∨
      ((p.write id index data d).result = .ok true ∧
        ∃ base, p.Taken d (p.write id index data d).state place id index data base) := by
  rw [LocalPages.write]
  cases hbase : p.baseFor id index data with
  | error e => exact .inl ⟨nofun, rfl⟩
  | ok base =>
    dsimp only
    cases hopen : d.openForWriting (p.pathFor id) with
    | error e => exact .inl ⟨nofun, rfl⟩
    | ok opened =>
      obtain ⟨q, d'⟩ := opened
      obtain ⟨hfits, rfl, hd⟩ := h.openForWriting_eq_ok (isFileId_of_baseFor hbase) hopen
      exact .inr ⟨rfl, base, hbase, hfits, hd.write _ _⟩

/-- Where there can be a file of an id, and there is nothing else, a page that may be written
    is taken. -/
theorem write_of_fits (h : p.RootedAt d place) (hbase : p.baseFor id index data = .ok base)
    (hfits : p.Fits id.toNul)
    (hfile : ∀ e, d.entry? (place ++ [id.toNul]) = some e → ∃ c m, e = .file c m) :
    (p.write id index data d).result = .ok true ∧
      p.Taken d (p.write id index data d).state place id index data base := by
  have hid := isFileId_of_baseFor hbase
  obtain ⟨q, d', hopen⟩ : ∃ q d', d.openForWriting (p.pathFor id) = .ok (q, d') := by
    obtain ⟨⟨hempty, hdot, -⟩, hlength, hpath⟩ := hfits
    rw [Disk.openForWriting, h.locate_pathFor hid, if_neg (Nat.not_lt.2 hpath), Disk.lookIn,
      if_neg (not_or.2 ⟨hempty, hdot⟩), if_neg (Nat.not_lt.2 hlength)]
    rcases hentry : d.entry? (place ++ [id.toNul]) with _ | entry
    · exact ⟨_, _, rfl⟩
    · obtain ⟨c, m, rfl⟩ := hfile entry hentry
      exact ⟨_, _, rfl⟩
  have hresult : (p.write id index data d).result = .ok true := by
    simp only [LocalPages.write, hbase, hopen]
  rcases h.write_cases id index data with ⟨hnot, -⟩ | ⟨-, base', htaken⟩
  · exact absurd hresult hnot
  · obtain rfl := Except.ok.inj (hbase.symm.trans htaken.baseFor_eq)
    exact ⟨hresult, htaken⟩

/-- A write leaves the directory without links. -/
theorem write (h : p.RootedAt d place) (id : Bytes) (index : Int) (data : Bytes) :
    p.RootedAt (p.write id index data d).state place := by
  rcases h.write_cases id index data with ⟨-, hstate⟩ | ⟨-, base, htaken⟩
  · rw [hstate]
    exact h
  · exact h.rewritten htaken.rewritten

/-- A write leaves everything as it is but the file of its id. -/
theorem entry?_write (h : p.RootedAt d place) (id : Bytes) (index : Int) (data : Bytes)
    {q : DiskPlace} (hq : q ≠ place ++ [id.toNul]) :
    (p.write id index data d).state.entry? q = d.entry? q := by
  rcases h.write_cases id index data with ⟨-, hstate⟩ | ⟨-, base, htaken⟩
  · rw [hstate]
  · exact htaken.rewritten.other q hq

end RootedAt

/-! ### What is found and read -/

/-- What the file of an id holds, nothing if there is no file. -/
def content (p : LocalPages) (d : Disk) (id : Bytes) : Bytes :=
  match d.status (p.pathFor id) with
  | .ok (.file content _) => content
  | _ => []

/-- Opens the file of an id as a reader of pages does, and reads from it. -/
def readAt (p : LocalPages) (d : Disk) (id : Bytes) (position length : Int) :
    Except Failure (Option Bytes) := do
  let file ← (LocalFiles.ofRoot p.root).openFile d (Byte.slash :: id)
  LocalFiles.read d file position length

/-- What is found of a page depends on what the path of its file leads to. -/
theorem find_congr (hid : isFileId other = isFileId id)
    (h : d'.locate true (p.pathFor other) = d.locate true (p.pathFor id)) :
    p.find d' other index = p.find d id index := by
  simp only [LocalPages.find, Disk.status, Disk.find, hid, h]

theorem find_of_not_isFileId (hid : ¬ isFileId id) : p.find d id index = none := by
  rw [LocalPages.find]
  split
  · rfl
  · rw [if_pos (by simpa using hid)]

/-- What is read of a page's file, whatever the disk is. -/
theorem readAt_eq (htrim : LocalFiles.trimRoot p.root = p.root) (hid : isFileId id)
    (position length : Int) :
    p.readAt d id position length =
      match d.find true (p.pathFor id) with
      | .error e => .error (LocalFiles.pathFailed "open" (Byte.slash :: id) e)
      | .ok (q, _) => LocalFiles.read d ⟨Byte.slash :: id, q⟩ position length := by
  have hfind : d.find true ((LocalFiles.ofRoot p.root).resolve (Byte.slash :: id)) =
      d.find true (p.pathFor id) := by
    rw [Disk.find, Disk.find, locate_resolve htrim hid]
  have hpaths : (LocalFiles.ofRoot p.root).paths (Byte.slash :: id) =
      .ok (Byte.slash :: id, (LocalFiles.ofRoot p.root).resolve (Byte.slash :: id)) := by
    rw [LocalFiles.paths, normalize_of_isFileId hid]
    rfl
  rw [LocalPages.readAt, LocalFiles.openFile, hpaths]
  simp only [bind, Except.bind, hfind]
  cases d.find true (p.pathFor id) <;> rfl

/-- What is read of a page's file, within numbers of sixty-four bits. -/
theorem readAt_of_status (htrim : LocalFiles.trimRoot p.root = p.root) (hid : isFileId id)
    {c : Bytes} {m : Int} (hstatus : d.status (p.pathFor id) = .ok (.file c m))
    {position length : Int} (hposition : 0 ≤ position) (hlength : 0 ≤ length)
    (hend : position + length ≤ int64Max) :
    p.readAt d id position length =
      .ok (if 0 < length ∧ c.length ≤ position then none
        else some ((c.drop position.toNat).take length.toNat)) := by
  obtain ⟨q, hfind⟩ := Disk.exists_find_of_status hstatus
  rw [readAt_eq htrim hid, hfind]
  dsimp only
  rw [LocalFiles.read, if_neg (by omega)]
  by_cases hzero : length = 0
  · rw [if_pos hzero, if_neg (by omega), hzero]
    rfl
  rw [if_neg hzero]
  have hread : d.read q position.toNat length.toNat =
      .ok ((c.drop position.toNat).take length.toNat) := by
    rw [Disk.read, if_neg (by omega), Disk.entry?_of_find hfind]
  -- An empty read is told as the end of the file, if anything was asked for.
  by_cases hbehind : (c.length : Int) ≤ position
  · have hnil : (c.drop position.toNat).take length.toNat = [] := by
      rw [List.drop_eq_nil_of_le (by omega), List.take_nil]
    rw [hread, hnil, if_pos ⟨by omega, hbehind⟩]
  · obtain ⟨b, bytes, hcons⟩ : ∃ b bytes, (c.drop position.toNat).take length.toNat = b :: bytes :=
      List.exists_cons_of_length_pos (by rw [List.length_take, List.length_drop]; omega)
    rw [hread, hcons, if_neg fun h => hbehind h.2]

/-- What is located of a page lies within the file. -/
theorem base_bounds (hsize : 0 < p.pageSize) (hfind : p.find d id index = some base) :
    0 ≤ base ∧ base ≤ int64Max ∧ base = index * p.pageSize ∧
      ∃ e, d.status (p.pathFor id) = .ok e ∧ base < Disk.sizeOf e := by
  rw [LocalPages.find, LocalPages.base?_eq hsize] at hfind
  split at hfind
  · cases hfind
  next hbase =>
  split at hbase <;> cases hbase
  next hindex =>
  split at hfind
  · cases hfind
  split at hfind
  · cases hfind
  next e hstatus =>
  split at hfind <;> cases hfind
  next hlt =>
  exact ⟨Int.mul_nonneg hindex.1 (Int.le_of_lt hsize), hindex.2, rfl, e, hstatus,
    Int.not_le.1 hlt⟩

/-- A page is found where it starts, if its file reaches beyond that. -/
theorem find_eq (hsize : 0 < p.pageSize) (hid : isFileId id)
    (hfile : ∀ e, d.status (p.pathFor id) = .ok e → ∃ c m, e = .file c m) :
    p.find d id index =
      if 0 ≤ index ∧ index * p.pageSize ≤ int64Max ∧
          index * p.pageSize < (p.content d id).length
        then some (index * p.pageSize) else none := by
  rw [LocalPages.find, base?_eq hsize, content]
  by_cases hbase : 0 ≤ index ∧ index * p.pageSize ≤ int64Max
  · rw [if_pos hbase]
    dsimp only
    rw [if_neg (by simpa using hid)]
    cases hstatus : d.status (p.pathFor id) with
    | error e =>
      have hzero : 0 ≤ index * p.pageSize := Int.mul_nonneg hbase.1 (Int.le_of_lt hsize)
      rw [if_neg (by simp only [List.length_nil]; omega)]
    | ok e =>
      obtain ⟨c, m, rfl⟩ := hfile e hstatus
      simp only [Disk.sizeOf, hbase, true_and, ← Int.not_lt, ite_not]
  · rw [if_neg hbase, if_neg (by tauto)]

namespace RootedAt

/-- An id leads to the directory itself, or to an entry of it. -/
theorem place_of_find (h : p.RootedAt d place) (hid : isFileId id) {q : DiskPlace} {e : DiskEntry}
    (hfind : d.find true (p.pathFor id) = .ok (q, e)) : q = place ∨ q = place ++ [id.toNul] := by
  rw [Disk.find, h.locate_pathFor hid] at hfind
  split at hfind
  · cases hfind
  · cases hfind
  next hlocate =>
  cases hfind
  split at hlocate
  · cases hlocate
  rcases Disk.lookIn_eq_ok hlocate with ⟨hspot, -⟩ | ⟨-, ⟨e', -, hspot⟩ | ⟨-, hspot⟩⟩
  · cases hspot
    exact .inl rfl
  · cases hspot
    exact .inr rfl
  · cases hspot

/-- Where there can be a file of an id, its path leads to the entry of the name. -/
theorem find_of_fits (h : p.RootedAt d place) (hid : isFileId id) (hfits : p.Fits id.toNul) :
    d.find true (p.pathFor id) =
      match d.entry? (place ++ [id.toNul]) with
      | none => .error .missing
      | some e => .ok (place ++ [id.toNul], e) := by
  obtain ⟨⟨hempty, hdot, -⟩, hlength, hpath⟩ := hfits
  rw [Disk.find, h.locate_pathFor hid, if_neg (Nat.not_lt.2 hpath), Disk.lookIn,
    if_neg (not_or.2 ⟨hempty, hdot⟩), if_neg (Nat.not_lt.2 hlength)]
  cases d.entry? (place ++ [id.toNul]) <;> rfl

/-- What the path of an id leads to is a file if the entry of the name is one. -/
theorem isFile_of_fits (h : p.RootedAt d place) (hid : isFileId id) (hfits : p.Fits id.toNul)
    (hfile : ∀ e, d.entry? (place ++ [id.toNul]) = some e → ∃ c m, e = .file c m) {e : DiskEntry}
    (hstatus : d.status (p.pathFor id) = .ok e) : ∃ c m, e = .file c m := by
  rw [Disk.status, h.find_of_fits hid hfits] at hstatus
  rcases hentry : d.entry? (place ++ [id.toNul]) with _ | entry
  · rw [hentry] at hstatus
    cases hstatus
  · rw [hentry] at hstatus
    cases hstatus
    exact hfile _ hentry

/-- Then what it holds is what is read under the id. -/
theorem content_of_fits (h : p.RootedAt d place) (hid : isFileId id) (hfits : p.Fits id.toNul)
    (hfile : ∀ e, d.entry? (place ++ [id.toNul]) = some e → ∃ c m, e = .file c m) :
    p.content d id = d.contentAt (place ++ [id.toNul]) := by
  rw [content, Disk.status, h.find_of_fits hid hfits, Disk.contentAt]
  rcases hentry : d.entry? (place ++ [id.toNul]) with _ | entry
  · rfl
  · obtain ⟨c, m, rfl⟩ := hfile entry hentry
    rfl

/-- What is read of a page's file if there are bytes in it. -/
theorem readAt_of_file (h : p.RootedAt d place) (hid : isFileId id) (hfits : p.Fits id.toNul)
    {content : Bytes} {m : Int} (hentry : d.entry? (place ++ [id.toNul]) = some (.file content m))
    {position length : Int} (hposition : 0 ≤ position) (hlength : 0 < length)
    (hend : position + length ≤ int64Max)
    (hbytes : (content.drop position.toNat).take length.toNat ≠ []) :
    p.readAt d id position length =
      .ok (some ((content.drop position.toNat).take length.toNat)) := by
  obtain ⟨b, bytes, hcons⟩ := List.exists_cons_of_ne_nil hbytes
  have hread : d.read (place ++ [id.toNul]) position.toNat length.toNat = .ok (b :: bytes) := by
    rw [Disk.read, if_neg (by omega), hentry, ← hcons]
  rw [LocalPages.readAt_eq h.trimRoot_eq hid, h.find_of_fits hid hfits, hentry]
  dsimp only
  rw [LocalFiles.read, if_neg (by omega), if_neg (by omega), hread, hcons]

end RootedAt

namespace Taken

theorem isFileId (ht : p.Taken d d' place id index data base) : isFileId id :=
  isFileId_of_baseFor ht.baseFor_eq

/-- What the files of the directory hold after the write. -/
theorem contentAt_eq (ht : p.Taken d d' place id index data base) (name : Bytes) :
    d'.contentAt (place ++ [name]) =
      if name = id.toNul ∧ data ≠ []
        then (d.contentAt (place ++ [id.toNul])).overwrite base.toNat data
        else d.contentAt (place ++ [name]) := by
  rw [ht.rewritten.contentAt_eq]
  by_cases heq : name = id.toNul
  · subst heq
    by_cases hdata : data = [] <;> simp [hdata]
  · have hne : place ++ [name] ≠ place ++ [id.toNul] := by simpa using heq
    rw [if_neg hne, if_neg fun hand => heq hand.1]

/-- What the file held before the write. -/
theorem content_eq (h : p.RootedAt d place) (ht : p.Taken d d' place id index data base) :
    p.content d id = d.contentAt (place ++ [id.toNul]) :=
  h.content_of_fits ht.isFileId ht.fits ht.rewritten.isFile

/-- A page that was written with data is found. -/
theorem find_eq (hsize : 0 < p.pageSize) (h : p.RootedAt d place)
    (ht : p.Taken d d' place id index data base) (hdata : data ≠ []) :
    p.find d' id index = some base := by
  obtain ⟨-, hindex, -, rfl, hend⟩ := (baseFor_eq_ok_iff hsize).1 ht.baseFor_eq
  obtain ⟨m, hentry⟩ := ht.rewritten.entry?_eq
  rw [if_neg hdata] at hentry
  have hstart : 0 ≤ index * p.pageSize := Int.mul_nonneg hindex (Int.le_of_lt hsize)
  have hlength : 0 < data.length := List.length_pos_iff.2 hdata
  have hfind := (h.rewritten ht.rewritten).find_of_fits ht.isFileId ht.fits
  rw [hentry] at hfind
  have hvalid : ¬ (!PageServer.isFileId id) = true := by simpa using ht.isFileId
  rw [LocalPages.find, base?_eq hsize, if_pos ⟨hindex, by omega⟩]
  dsimp only
  rw [if_neg hvalid, Disk.status, hfind]
  simp only [Functor.map, Except.map, Disk.sizeOf, Bytes.length_overwrite]
  rw [if_neg (by omega)]

/-- A page is read with what the file held behind the bytes that were written, as far as
    the page goes. -/
theorem readAt_eq (hsize : 0 < p.pageSize) (h : p.RootedAt d place)
    (ht : p.Taken d d' place id index data base) (hdata : data ≠ [])
    (hend : base + p.pageSize ≤ int64Max) :
    p.readAt d' id base p.pageSize =
      .ok (some (data ++ ((p.content d id).drop (base.toNat + data.length)).take
        (p.pageSize.toNat - data.length))) := by
  obtain ⟨-, hindex, hlength, rfl, -⟩ := (baseFor_eq_ok_iff hsize).1 ht.baseFor_eq
  obtain ⟨m, hentry⟩ := ht.rewritten.entry?_eq
  rw [if_neg hdata, ← content_eq h ht] at hentry
  have hstart : 0 ≤ index * p.pageSize := Int.mul_nonneg hindex (Int.le_of_lt hsize)
  have hbytes : (((p.content d id).overwrite (index * p.pageSize).toNat data).drop
        (index * p.pageSize).toNat).take p.pageSize.toNat =
      data ++ ((p.content d id).drop ((index * p.pageSize).toNat + data.length)).take
        (p.pageSize.toNat - data.length) := by
    rw [Bytes.drop_overwrite, List.take_append, List.take_of_length_le (by omega)]
  rw [(h.rewritten ht.rewritten).readAt_of_file ht.isFileId ht.fits hentry hstart hsize hend
    (by rw [hbytes]; exact List.append_ne_nil_of_left_ne_nil hdata _), hbytes]

end Taken

end LocalPages

end PageServer
