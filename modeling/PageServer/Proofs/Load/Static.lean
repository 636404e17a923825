import PageServer.Proofs.Files.Failing
import PageServer.Proofs.Files.Tree
import PageServer.Proofs.Load.Talk
import PageServer.Proofs.Pages.Local

/-!
# What loads change of a disk

Loads from the files of a disk into pages on the same disk change it by writing pages, and by
nothing else (`Workplace.disk_step`). So a tree that is apart from the pages stands all the time
(`Chronicle.grounds_upTo`), unless something else changes the disk.
-/

namespace PageServer.Load

/-- Loads from the files of a disk into pages on it. -/
def Workplace.ofDisk (f : LocalFiles) (p : LocalPages) : Workplace Installation :=
  ⟨f.onDisk.within Installation.diskPart, p.store Installation.diskPart, Installation.servicePart⟩

variable {f : LocalFiles} {p : LocalPages} {c : Chronicle Installation}
  {next : Nat → Event Installation} {store : DiskPlace} {b : Branch} {x : Installation}

theorem apart_ofDisk (f : LocalFiles) (p : LocalPages) : (Workplace.ofDisk f p).Apart :=
  apart_local f p

/-- The calls of a run leave the disk as it is, but for the writes. -/
theorem disk_perform (f : LocalFiles) (p : LocalPages) (path : Bytes) (call : Call)
    (x : Installation) :
    ((Workplace.ofDisk f p).perform path call x).state.disk =
      match call with
      | .writePage id index data => (p.write id index data x.disk).state
      | _ => x.disk := by
  cases call with
  | list q =>
    show (f.onDisk.list q x.disk).state = x.disk
    rw [LocalFiles.onDisk]
    dsimp only
    split <;> rfl
  | _ => rfl

/-- A step of the work leaves the disk as it is, or it writes a page. -/
theorem Workplace.disk_step (f : LocalFiles) (p : LocalPages) (x : Installation) :
    ((Workplace.ofDisk f p).step x).state.disk = x.disk ∨
      ∃ id index data, ((Workplace.ofDisk f p).step x).state.disk =
        (p.write id index data x.disk).state := by
  rw [Workplace.step, (apart_ofDisk f p).step_eq]
  rcases hcurrent : ((Workplace.ofDisk f p).service.get x).current with
    _ | ⟨path, result | ⟨call, follow⟩⟩
  · rcases hwaiting : ((Workplace.ofDisk f p).service.get x).waiting with _ | ⟨path, rest⟩
    · exact .inl rfl
    · exact .inl rfl
  · exact .inl rfl
  · have hcall := disk_perform f p path call x
    cases call with
    | writePage id index data => exact .inr ⟨id, index, data, hcall⟩
    | _ => exact .inl hcall

/-- Files and pages of a disk reply, or fail as they do. -/
theorem sound_ofDisk (f : LocalFiles) (p : LocalPages) (path : Bytes) (call : Call)
    (x : Installation) :
    Exchange.Sound ⟨call, ((Workplace.ofDisk f p).perform path call x).result⟩ := by
  -- A failure is one of the file system, but for that of a write.
  have hresult : ∀ e, ((Workplace.ofDisk f p).perform path call x).result = .error e →
      Job.isOfFile e ∧ (Exchange.isWrite ⟨call, .error e⟩ = false → e.isFileSystem) := by
    have hfiles : ∀ {e : Failure}, e.isFileSystem →
        Job.isOfFile e ∧ (Exchange.isWrite ⟨call, .error e⟩ = false → e.isFileSystem) :=
      fun he => ⟨Job.isOfFile_of_isFileSystem he, fun _ => he⟩
    intro e he
    cases call with
    | status q =>
      have he' : f.status x.disk q = .error e := he
      exact hfiles (LocalFiles.isFileSystem_of_status he')
    | list q =>
      have hends := (LocalFiles.sound_onDisk f).list q x.disk
      have he' : (f.onDisk.list q x.disk).result = .error e := he
      rw [Act.Ends, he'] at hends
      exact hfiles hends
    | openFile q =>
      have he' : f.openFile x.disk q = .error e := he
      exact hfiles (LocalFiles.isFileSystem_of_openFile he')
    | read file position length =>
      have he' : LocalFiles.read x.disk file position length = .error e := he
      exact hfiles (LocalFiles.isFileSystem_of_read he')
    | writePage id index data =>
      obtain ⟨reason, rfl⟩ := LocalPages.pageStore_of_write (d := x.disk) he
      exact ⟨rfl, fun h => by cases h⟩
    | isCached id index => cases he
    | isStopped => cases he
    | update g => cases he
    | warn message => cases he
  exact ⟨fun hown e => Workplace.perform_isOwn _ path hown x e, fun e he => (hresult e he).1,
    fun hwrite e he => (hresult e he).2 hwrite⟩

/-! ### Trees apart from pages -/

/-- A tree stands on the disk, apart from the directory of the pages. -/
structure Grounds (f : LocalFiles) (p : LocalPages) (top : Branch) (store : DiskPlace) (d : Disk) :
    Prop where
  stands : f.Stands d top
  rootedAt : p.RootedAt d store
  apart : ∀ id, ¬ top.place <+: store ++ [id]

/-- Pages that are written leave the tree as it is. -/
theorem Grounds.write {d : Disk} (h : Grounds f p b store d) (id : Bytes) (index : Int)
    (data : Bytes) : Grounds f p b store (p.write id index data d).state where
  stands := by
    rcases h.rootedAt.write_cases id index data with ⟨-, hstate⟩ | ⟨-, base, htaken⟩
    · rw [hstate]
      exact h.stands
    · exact h.stands.rewritten htaken.rewritten (h.apart id.toNul)
  rootedAt := h.rootedAt.write id index data
  apart := h.apart

namespace Chronicle

/-- Nothing but the loads changes the disk. -/
def Alone (w : Workplace Installation) (c : Chronicle Installation)
    (next : Nat → Event Installation) : Prop :=
  ∀ k x, next k = .world x → x.disk = (c.upTo w next k).state.disk

/-- What pages that are written keep holds all the time, if what else happens to the disk keeps
    it as well. -/
theorem disk_upTo {P : Disk → Prop} (hc : P c.state.disk)
    (hworld : ∀ k x, next k = .world x → P (c.upTo (.ofDisk f p) next k).state.disk → P x.disk)
    (hwrite : ∀ d id index data, P d → P (p.write id index data d).state) (k : Nat) :
    P (c.upTo (.ofDisk f p) next k).state.disk := by
  induction k with
  | zero => exact hc
  | succ k ih =>
    rw [upTo_succ]
    cases hnext : next k with
    | load path o => exact ih
    | world x => exact hworld k x hnext ih
    | work =>
      have hafter : ((c.upTo (.ofDisk f p) next k).after (.ofDisk f p) .work).state =
        ((Workplace.ofDisk f p).step (c.upTo (.ofDisk f p) next k).state).state := rfl
      rw [hafter]
      rcases Workplace.disk_step f p (c.upTo (.ofDisk f p) next k).state with
        hsame | ⟨id, index, data, hstep⟩
      · rw [hsame]
        exact ih
      · rw [hstep]
        exact hwrite _ id index data ih

/-- The tree stands all the time, if nothing but the loads changes the disk. -/
theorem grounds_upTo (h : Grounds f p b store c.state.disk) (halone : c.Alone (.ofDisk f p) next)
    (k : Nat) : Grounds f p b store (c.upTo (.ofDisk f p) next k).state.disk :=
  disk_upTo h (fun k x hx hk => (halone k x hx).symm ▸ hk)
    (fun _ id index data hd => hd.write id index data) k

/-- On this disk a load of the path is accepted, and begins. -/
def beginning (f : LocalFiles) (p : LocalPages) (d : Disk) (path : Bytes) (o : LoadOptions) :
    Chronicle Installation :=
  .run (.ofDisk f p) { state := { disk := d } } [.load path o, .work]

theorem orderly_beginning (f : LocalFiles) (p : LocalPages) (d : Disk) (path : Bytes)
    (o : LoadOptions) : ((beginning f p d path o).service (.ofDisk f p)).Orderly 128
      (beginning f p d path o).accepted (beginning f p d path o).begun
      (beginning f p d path o).ended :=
  (sound_run (apart_ofDisk f p) (x := { disk := d }) 128 rfl _).orderly

end Chronicle

/-! ### A disk with a tree -/

namespace SmallDisk

/-- Below the root there is a directory with a file in it, and with another one in a directory
    of it. -/
def top : Branch :=
  ⟨"/", ["files"], .directory 0 [("d", .directory 0
    [("a", .file "abcde" 0), ("e", .directory 0 [("b", .file "xy" 0)])])]⟩

/-- A disk where it stands, with a directory for pages. -/
def disk : Disk where
  entries := .ofList [(["files"], .directory 0), (["files", "d"], .directory 0),
    (["files", "d", "a"], .file "abcde" 0), (["files", "d", "e"], .directory 0),
    (["files", "d", "e", "b"], .file "xy" 0), (["pages"], .directory 0)]

def files : LocalFiles := ⟨"/files"⟩

def pages : LocalPages := ⟨"/pages", 4⟩

theorem stands : files.Stands disk top where
  root_ne := by decide
  isCanonical := ⟨[], rfl, List.forall_mem_nil _⟩
  zero_not_mem := by decide
  find_eq := rfl
  on := .directory rfl rfl (by decide +kernel) (List.forall_mem_singleton.2
    (.directory rfl rfl (by decide +kernel) (List.forall_mem_cons.2 ⟨.file rfl,
      List.forall_mem_singleton.2 (.directory rfl rfl (by decide +kernel)
        (List.forall_mem_singleton.2 (.file rfl)))⟩)))

theorem grounds : Grounds files pages top [ascii "pages"] disk where
  stands := stands
  rootedAt := ⟨by decide, rfl, ⟨0, rfl⟩, fun name target h => by cases h⟩
  apart id := by
    rintro ⟨rest, hrest⟩
    cases hrest

/-- A load of a path on the disk begins. -/
def begun (path : Bytes) (o : LoadOptions) : Chronicle Installation :=
  .beginning files pages disk path o

theorem orderly_begun (path : Bytes) (o : LoadOptions) :
    ((begun path o).service (.ofDisk files pages)).Orderly 128 (begun path o).accepted
      (begun path o).begun (begun path o).ended :=
  Chronicle.orderly_beginning files pages disk path o

/-- The tree stands while it is loaded. -/
theorem stands_upTo {c : Chronicle Installation} (hdisk : c.state.disk = disk) (k : Nat) :
    files.Stands (c.upTo (.ofDisk files pages) (fun _ => .work) k).state.disk top :=
  (Chronicle.grounds_upTo (hdisk ▸ grounds) (fun _ _ h => by cases h) k).stands

end SmallDisk

/-! ### Where a server without settings has its files and pages -/

namespace DefaultDisk

/-- A directory with a file in it, and with another one in a directory of it. -/
def top : Branch :=
  ⟨"/data", ["data"], .directory 0
    [("a", .file "abcde" 0), ("e", .directory 0 [("b", .file "xy" 0)])]⟩

/-- A disk where it stands, with a directory for pages elsewhere. -/
def disk : Disk where
  entries := .ofList [(["data"], .directory 0), (["data", "a"], .file "abcde" 0),
    (["data", "e"], .directory 0), (["data", "e", "b"], .file "xy" 0), (["tmp"], .directory 0),
    (["tmp", "cacheworker"], .directory 0), (["tmp", "cacheworker", "pages"], .directory 0)]

/-- All files of the disk are served. -/
def files : LocalFiles := .ofRoot "/"

def pages : LocalPages := ⟨"/tmp/cacheworker/pages", 1048576⟩

theorem grounds :
    Grounds files pages top [ascii "tmp", ascii "cacheworker", ascii "pages"] disk where
  stands := {
    root_ne := by decide
    isCanonical := ⟨["data"], rfl, by decide⟩
    zero_not_mem := by decide
    find_eq := rfl
    on := .directory rfl rfl (by decide +kernel) (List.forall_mem_cons.2 ⟨.file rfl,
      List.forall_mem_singleton.2 (.directory rfl rfl (by decide +kernel)
        (List.forall_mem_singleton.2 (.file rfl)))⟩) }
  rootedAt := ⟨by decide, rfl, ⟨0, rfl⟩, fun name target h => by cases h⟩
  apart id := by
    rintro ⟨rest, hrest⟩
    cases hrest

end DefaultDisk

end PageServer.Load
