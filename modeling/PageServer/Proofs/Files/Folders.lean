import Mathlib.Data.List.Nodup
import PageServer.Proofs.Files.Tree
import PageServer.Proofs.Table

/-!
# The directories of a tree

From the top of a branch the entries are reached whose paths are not too long for the disk,
directory by directory (`LocalFiles.Reaches`). If the branch stands on the disk, all that is
reached stands there as well (`LocalFiles.Stands.reaches`), and so it is listed as it is.

Files come and go, for instance as pages are written. A tree without its files
(`FileTree.bare`) tells which directories there are, and these alone are what a listing finds
to be listed next (`LocalFiles.folders_bare`).
-/

namespace PageServer

/-! ### Trees without their files -/

namespace FileTree

mutual

/-- The directories of the tree. -/
def bare : FileTree → FileTree
  | file content modified => file content modified
  | directory _ children => directory 0 (bareIn children)

/-- The directories of the trees in a directory. -/
def bareIn : List (Bytes × FileTree) → List (Bytes × FileTree)
  | [] => []
  | (name, tree) :: rest =>
    match tree with
    | file _ _ => bareIn rest
    | directory _ _ => (name, tree.bare) :: bareIn rest

end

end FileTree

namespace Branch

variable {b c : Branch}

/-- The directories of the branch. -/
def bare (b : Branch) : Branch := { b with tree := b.tree.bare }

@[simp]
theorem path_bare (b : Branch) : b.bare.path = b.path := rfl

@[simp]
theorem isFolder_bare (b : Branch) : b.bare.isFolder = b.isFolder := by
  obtain ⟨path, place, tree⟩ := b
  cases tree with
  | file content modified =>
    simp only [bare, FileTree.bare]
  | directory modified children =>
    simp only [bare, FileTree.bare]
    rfl

/-- Of a branch without its files, the directories are left. -/
theorem children_bare (b : Branch) : b.bare.children = b.folders.map bare := by
  obtain ⟨path, place, tree⟩ := b
  cases tree with
  | file content modified =>
    simp only [bare, FileTree.bare]
    rfl
  | directory modified children =>
    simp only [bare, FileTree.bare, Branch.folders, Branch.children]
    induction children with
    | nil => rfl
    | cons c rest ih =>
      obtain ⟨name, tree⟩ := c
      simp only [List.map_cons, List.filter_cons, FileTree.bareIn]
      cases tree with
      | file content modified => exact ih
      | directory modified children =>
        rw [List.map_cons, ih]
        rfl

end Branch

namespace LocalFiles

variable {f : LocalFiles} {d d' : Disk} {b c top : Branch}

/-! ### What is reached -/

/-- From the top, the branch is reached through directories, and no path on the way is too
    long. -/
inductive Reaches (f : LocalFiles) (top : Branch) : Branch → Prop
  | top : Reaches f top top
  | child {b c : Branch} (h : Reaches f top b) (hc : c ∈ f.reachable b) : Reaches f top c

theorem mem_reachable_iff :
    c ∈ f.reachable b ↔ c ∈ b.children ∧ (f.resolve c.path).length ≤ Disk.maxPath := by
  rw [reachable, List.mem_filter, decide_eq_true_iff]

/-- What is reached from a branch that stands, stands. -/
theorem Stands.reaches (h : f.Stands d top) (hc : f.Reaches top c) : f.Stands d c := by
  induction hc with
  | top => exact h
  | child _ hc ih => exact ih.child (mem_reachable_iff.1 hc).1 (mem_reachable_iff.1 hc).2

/-- The directories that are listed in a directory. -/
def folders (f : LocalFiles) (b : Branch) : List Branch := (f.reachable b).filter (·.isFolder)

theorem map_path_folders (f : LocalFiles) (b : Branch) :
    ((((f.reachable b).map f.statusAt).filter (·.isFolder)).map (·.path)) =
      (f.folders b).map (·.path) := by
  simp only [List.filter_map, List.map_map, Function.comp_def, isFolder_statusAt, path_statusAt,
    folders]

/-- Only the directories of a tree tell which directories are listed. -/
theorem folders_bare (f : LocalFiles) (b : Branch) :
    (f.folders b).map (·.path) = (f.reachable b.bare).map (·.path) := by
  rw [folders, reachable, reachable, Branch.children_bare, Branch.folders, List.filter_map,
    List.map_map, List.filter_filter, List.filter_filter]
  simp only [Function.comp_def, Branch.path_bare, Bool.and_comm]
  rfl

/-- The directories that are reached in the tree without its files are those of the tree. -/
theorem exists_reaches_of_bare (h : f.Reaches b.bare c) : ∃ c', f.Reaches b c' ∧ c'.bare = c := by
  induction h with
  | top => exact ⟨b, .top, rfl⟩
  | child _ hc ih =>
    obtain ⟨b', hb', rfl⟩ := ih
    obtain ⟨hmem, hshort⟩ := mem_reachable_iff.1 hc
    rw [Branch.children_bare] at hmem
    obtain ⟨c', hc', rfl⟩ := List.mem_map.1 hmem
    exact ⟨c', hb'.child (mem_reachable_iff.2 ⟨List.mem_of_mem_filter hc', hshort⟩), rfl⟩

theorem Reaches.bare (h : f.Reaches b c) (hc : c.isFolder) : f.Reaches b.bare c.bare := by
  induction h with
  | top => exact .top
  | @child b' c _ hmem ih =>
    obtain ⟨hmem, hshort⟩ := mem_reachable_iff.1 hmem
    refine (ih (Branch.isFolder_of_mem_children hmem)).child (mem_reachable_iff.2 ⟨?_, hshort⟩)
    rw [Branch.children_bare]
    exact List.mem_map_of_mem (List.mem_filter.2 ⟨hmem, hc⟩)

/-- In a directory that stands, just those directories are listed. -/
theorem Stands.list_folders (h : f.Stands d b) (hb : b.isFolder) :
    ∃ entries, (f.onDisk.list b.path d).result = .ok entries ∧
      (entries.filter (·.isFolder)).map (·.path) = (f.folders b).map (·.path) :=
  ⟨_, (h.list_directory hb).1, map_path_folders f b⟩

/-- With the same directories in the tree, the same directories are listed, whatever files
    there are. -/
theorem Stands.list_folders_of_bare {b' : Branch} (h : f.Stands d' b') (hbare : b'.bare = b.bare)
    (hc : f.Reaches b c) (hfolder : c.isFolder) :
    ∃ entries, (f.onDisk.list c.path d').result = .ok entries ∧
      (entries.filter (·.isFolder)).map (·.path) = (f.folders c).map (·.path) := by
  have hreaches := hc.bare hfolder
  rw [← hbare] at hreaches
  obtain ⟨c', hc', heq⟩ := exists_reaches_of_bare hreaches
  have hpath : c'.path = c.path := by rw [← Branch.path_bare, heq, Branch.path_bare]
  have hfolder' : c'.isFolder := by rw [← Branch.isFolder_bare, heq, Branch.isFolder_bare, hfolder]
  obtain ⟨entries, hentries, hfolders⟩ := (h.reaches hc').list_folders hfolder'
  rw [hpath] at hentries
  refine ⟨entries, hentries, ?_⟩
  rw [hfolders, folders_bare, folders_bare, heq]

end LocalFiles

/-! ### Names of their own -/

namespace LocalFiles

variable {f : LocalFiles} {d : Disk} {b c : Branch}

/-- The entries of a directory that stands are at the paths of proper names, each at one of
    its own. -/
theorem Stands.child_names (h : f.Stands d b) :
    ∃ names : List Bytes, names.Nodup ∧ (∀ name ∈ names, Disk.ProperName name) ∧
      b.children.map (·.path) = names.map (LocalFiles.child b.path) := by
  obtain ⟨path, place, tree⟩ := b
  cases tree with
  | file content modified => exact ⟨[], List.nodup_nil, List.forall_mem_nil _, rfl⟩
  | directory modified children =>
    have hnames := h.names_eq
    refine ⟨children.map (·.1), hnames ▸ d.nodup_names place, ?_, ?_⟩
    · intro name hname
      obtain ⟨c, hc, rfl⟩ := List.mem_map.1 hname
      exact (h.proper hc).1
    · rw [Branch.children, List.map_map, List.map_map]
      rfl

end LocalFiles

end PageServer
