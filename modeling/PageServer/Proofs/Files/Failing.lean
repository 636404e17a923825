import PageServer.Files.Local
import PageServer.Proofs.Act

/-!
# How file systems fail

Of a file system one may expect that its calls end with a value, or fail with one of the
failures that are its own: there is no such path, or something went wrong
(`FileSystem.Sound`). Local files keep to this (`LocalFiles.sound_onDisk`), on any disk
and for any path, and also as a part of something larger (`FileSystem.Sound.within`).
-/

namespace PageServer

/-- The calls of the file system end with a value, or fail as file systems do. -/
structure FileSystem.Sound {σ : Type} (fs : FileSystem σ) : Prop where
  list : ∀ path s, (fs.list path).Ends s (fun _ _ => True) fun e _ => e.isFileSystem
  status : ∀ path s, (fs.status path).Ends s (fun _ _ => True) fun e _ => e.isFileSystem
  openFile : ∀ path s, (fs.openFile path).Ends s (fun _ _ => True) fun e _ => e.isFileSystem
  read : ∀ file position length s,
    (fs.read file position length).Ends s (fun _ _ => True) fun e _ => e.isFileSystem

theorem FileSystem.Sound.within {σ τ : Type} {fs : FileSystem τ} (h : fs.Sound) (part : Part σ τ) :
    (fs.within part).Sound where
  list path s := Act.ends_within (h.list path (part.get s))
  status path s := Act.ends_within (h.status path (part.get s))
  openFile path s := Act.ends_within (h.openFile path (part.get s))
  read file position length s := Act.ends_within (h.read file position length (part.get s))

/-! ### Local files -/

namespace LocalFiles

variable {f : LocalFiles} {d : Disk} {path logical : Bytes} {e : Failure}

theorem isFileSystem_pathFailed (call logical : Bytes) (e : DiskError) :
    (pathFailed call logical e).isFileSystem := by
  rw [pathFailed]
  split <;> rfl

theorem isFileSystem_of_bind {α β : Type} {a : Except Failure α} {g : α → Except Failure β}
    (h : (a >>= g) = .error e) (ha : ∀ e, a = .error e → e.isFileSystem)
    (hg : ∀ v, a = .ok v → ∀ e, g v = .error e → e.isFileSystem) : e.isFileSystem := by
  cases a with
  | error e' =>
    cases h
    exact ha e rfl
  | ok v => exact hg v rfl e h

theorem isFileSystem_of_normalize (h : normalize path = .error e) : e.isFileSystem := by
  simp only [normalize] at h
  split at h <;> cases h
  rfl

theorem isFileSystem_of_lookUp (h : f.lookUp d logical = .error e) : e.isFileSystem := by
  rw [lookUp] at h
  split at h <;> cases h
  exact isFileSystem_pathFailed ..

theorem isFileSystem_of_paths (h : f.paths path = .error e) : e.isFileSystem :=
  isFileSystem_of_bind h (fun _ => isFileSystem_of_normalize) nofun

theorem isFileSystem_of_list (h : f.list d path = .error e) : e.isFileSystem := by
  refine isFileSystem_of_bind h (fun _ => isFileSystem_of_paths) fun pair _ e he => ?_
  dsimp only at he
  split at he <;> cases he
  exact isFileSystem_pathFailed ..

theorem isFileSystem_of_status (h : f.status d path = .error e) : e.isFileSystem :=
  isFileSystem_of_bind h (fun _ => isFileSystem_of_normalize) fun _ _ _ => isFileSystem_of_lookUp

theorem isFileSystem_of_openFile (h : f.openFile d path = .error e) : e.isFileSystem := by
  refine isFileSystem_of_bind h (fun _ => isFileSystem_of_paths) fun pair _ e he => ?_
  dsimp only at he
  split at he <;> cases he
  exact isFileSystem_pathFailed ..

theorem isFileSystem_of_read {file : OpenFile} {position length : Int}
    (h : LocalFiles.read d file position length = .error e) : e.isFileSystem := by
  rw [LocalFiles.read] at h
  split at h
  · cases h
    rfl
  split at h
  · cases h
  split at h <;> cases h
  rfl

theorem sound_onDisk (f : LocalFiles) : f.onDisk.Sound where
  list path d := Act.ends_of_error fun e he => by
    cases hlist : f.list d path with
    | error e' =>
      simp only [onDisk, hlist, Except.error.injEq] at he
      exact he ▸ isFileSystem_of_list hlist
    | ok r =>
      simp only [onDisk, hlist] at he
      cases he
  status path d := Act.ends_of_error fun _ he => isFileSystem_of_status he
  openFile path d := Act.ends_of_error fun _ he => isFileSystem_of_openFile he
  read file position length d := Act.ends_of_error fun _ he => isFileSystem_of_read he

end LocalFiles

end PageServer
