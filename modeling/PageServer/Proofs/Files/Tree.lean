import Mathlib.Algebra.GroupWithZero.Nat
import PageServer.Proofs.Act
import PageServer.Proofs.Files.Listing

/-!
# Trees of files

A finite tree of directories and files stands at a place of a disk if just its entries are
there (`FileTree.On`). With this place, and a path for it, the tree is a *branch*. Local files
*show* a branch if the path leads to the place, and no path in the branch is too long for the
disk (`LocalFiles.Shows`). Then all branches of it are shown as well
(`LocalFiles.Shows.within`), so that its files are found and opened. A branch that just stands
on the disk (`LocalFiles.Stands`) is listed without the entries whose paths are too long
(`LocalFiles.Stands.list_directory`).
-/

namespace PageServer

/-- A finite tree of directories and files. -/
inductive FileTree
  | file (content : Bytes) (modified : Int)
  | directory (modified : Int) (children : List (Bytes × FileTree))

/-- A file at a path. -/
structure FoundFile where
  path : Bytes
  content : Bytes
  modified : Int
  deriving DecidableEq, Repr

/-- A tree with the path and the place of its root. -/
structure Branch where
  path : Bytes
  place : DiskPlace
  tree : FileTree

namespace FileTree

/-- Trees are built up from files. -/
@[elab_as_elim, induction_eliminator]
theorem induction {motive : FileTree → Prop}
    (file : ∀ content modified, motive (.file content modified))
    (directory : ∀ modified children, (∀ c ∈ children, motive c.2) →
      motive (.directory modified children)) (tree : FileTree) : motive tree :=
  match tree with
  | .file content modified => file content modified
  | .directory modified children =>
    directory modified children fun c _ => induction file directory c.2
termination_by tree
decreasing_by
  rename_i hc
  have hsize := List.sizeOf_lt_of_mem hc
  rcases c with ⟨name, tree⟩
  simp only [FileTree.directory.sizeOf_spec, Prod.mk.sizeOf_spec] at hsize ⊢
  omega

/-- What is at the root of the tree. -/
def root : FileTree → DiskEntry
  | file content modified => .file content modified
  | directory modified _ => .directory modified

mutual

/-- The files of the tree, if its root has this path. -/
def filesAt (path : Bytes) : FileTree → List FoundFile
  | file content modified => [⟨path, content, modified⟩]
  | directory _ children => filesIn path children

/-- The files of the trees in a directory with this path. -/
def filesIn (path : Bytes) : List (Bytes × FileTree) → List FoundFile
  | [] => []
  | (name, tree) :: rest => tree.filesAt (LocalFiles.child path name) ++ filesIn path rest

end

theorem filesIn_eq (path : Bytes) (children : List (Bytes × FileTree)) :
    filesIn path children =
      children.flatMap fun c => c.2.filesAt (LocalFiles.child path c.1) := by
  induction children with
  | nil => rfl
  | cons c rest ih => rw [filesIn, ih, List.flatMap_cons]

/-- The tree stands at a place of the disk: its entries are there, and a directory has no
    others. -/
inductive On (d : Disk) : DiskPlace → FileTree → Prop
  | file {place : DiskPlace} {content : Bytes} {modified : Int}
      (hentry : d.entry? place = some (.file content modified)) :
      On d place (.file content modified)
  | directory {place : DiskPlace} {modified : Int} {children : List (Bytes × FileTree)}
      (hentry : d.entry? place = some (.directory modified))
      (hnames : d.names place = children.map (·.1))
      (hproper : ∀ c ∈ children, Disk.ProperName c.1)
      (hchildren : ∀ c ∈ children, On d (place ++ [c.1]) c.2) :
      On d place (.directory modified children)

variable {d d' : Disk} {place : DiskPlace} {tree : FileTree}

theorem On.entry?_eq (h : tree.On d place) : d.entry? place = some tree.root := by
  cases h with
  | file hentry => exact hentry
  | directory hentry => exact hentry

theorem root_ne_link (tree : FileTree) (target : Bytes) : tree.root ≠ .link target := by
  cases tree <;> exact fun h => by cases h

/-- A file that is made or changed elsewhere is of no matter. -/
theorem On.rewritten {q : DiskPlace} {content : Bytes} (h : tree.On d place)
    (hd : Disk.Rewritten d d' q content) (hapart : ¬ place <+: q) : tree.On d' place := by
  have hother : ∀ {place}, ¬ place <+: q → d'.entry? place = d.entry? place :=
    fun hapart => hd.other _ fun heq => hapart (heq ▸ List.prefix_refl _)
  induction h with
  | file hentry => exact .file ((hother hapart).trans hentry)
  | @directory place modified children hentry hnames hproper hchildren ih =>
    have hdirectory : q.dropLast ≠ place := by
      rintro rfl
      exact hapart (List.dropLast_prefix q)
    refine .directory ((hother hapart).trans hentry) ((hd.names_eq _ hdirectory).trans hnames)
      hproper fun c hc => ih c hc fun hbelow => hapart ?_
    exact (List.prefix_append _ _).trans hbelow

end FileTree

namespace Branch

/-- The files of the branch. -/
def files (b : Branch) : List FoundFile := b.tree.filesAt b.path

/-- Whether there is a directory at the root. -/
def isFolder (b : Branch) : Bool :=
  match b.tree with
  | .file _ _ => false
  | .directory _ _ => true

/-- The branches of the directory at the root. -/
def children (b : Branch) : List Branch :=
  match b.tree with
  | .file _ _ => []
  | .directory _ children =>
    children.map fun c => ⟨LocalFiles.child b.path c.1, b.place ++ [c.1], c.2⟩

/-- The files of a directory are those of its branches. -/
theorem files_of_isFolder {b : Branch} (h : b.isFolder) : b.files = b.children.flatMap files := by
  obtain ⟨path, place, tree⟩ := b
  cases tree with
  | file content modified => cases h
  | directory modified children =>
    rw [files, FileTree.filesAt, FileTree.filesIn_eq, Branch.children, List.flatMap_map]
    rfl

/-- The directories in the directory at the root. -/
def folders (b : Branch) : List Branch := b.children.filter (·.isFolder)

/-- The files in the directory at the root. -/
def ownFiles (b : Branch) : List FoundFile := (b.children.filter (!·.isFolder)).flatMap files

/-- The files of a directory are its own, and those of the directories in it. -/
theorem files_perm {b : Branch} (h : b.isFolder) :
    b.files.Perm (b.ownFiles ++ b.folders.flatMap files) := by
  rw [files_of_isFolder h, ownFiles, folders, ← List.flatMap_append]
  exact ((List.filter_append_perm (·.isFolder) b.children).symm.trans
    List.perm_append_comm).flatMap_right _

/-- The directories in a directory are smaller than it is. -/
theorem sizeOf_folders_lt {b : Branch} (h : b.isFolder) :
    (b.folders.map (sizeOf ·.tree)).sum < sizeOf b.tree := by
  obtain ⟨path, place, tree⟩ := b
  cases tree with
  | file content modified => cases h
  | directory modified children =>
    have hchildren : ((Branch.folders ⟨path, place, .directory modified children⟩).map
        (sizeOf ·.tree)).sum < sizeOf children := by
      rw [folders, Branch.children]
      dsimp only
      induction children with
      | nil => exact Nat.zero_lt_one
      | cons c rest ih =>
        have hrest := ih rfl
        obtain ⟨name, tree⟩ := c
        rw [List.map_cons, List.filter_cons]
        split
        · simp only [List.map_cons, List.sum_cons, List.cons.sizeOf_spec, Prod.mk.sizeOf_spec]
          omega
        · simp only [List.cons.sizeOf_spec]
          omega
    refine Nat.lt_of_lt_of_le hchildren ?_
    rw [FileTree.directory.sizeOf_spec]
    exact Nat.le_add_left _ _

/-- All branches of a branch, itself among them. -/
inductive Within (top : Branch) : Branch → Prop
  | top : Within top top
  | child {b c : Branch} (h : Within top b) (hc : c ∈ b.children) : Within top c

variable {b c top : Branch} {x : FoundFile}

theorem Within.trans (h : top.Within b) (h' : b.Within c) : top.Within c := by
  induction h' with
  | top => exact h
  | child _ hc ih => exact ih.child hc

/-- A branch is the whole, or it is in one of the branches of the directory at the root. -/
theorem Within.eq_or_child (h : top.Within c) : c = top ∨ ∃ b ∈ top.children, b.Within c := by
  induction h with
  | top => exact .inl rfl
  | child _ hc ih =>
    rcases ih with rfl | ⟨b', hb', hwithin⟩
    · exact .inr ⟨_, hc, .top⟩
    · exact .inr ⟨b', hb', hwithin.child hc⟩

theorem isFolder_of_mem_children (h : c ∈ b.children) : b.isFolder := by
  obtain ⟨path, place, tree⟩ := b
  cases tree with
  | file content modified => cases h
  | directory modified children => rfl

/-- The files of a branch are branches of it. -/
theorem exists_within (hx : x ∈ b.files) :
    ∃ place, b.Within ⟨x.path, place, .file x.content x.modified⟩ := by
  obtain ⟨path, place, tree⟩ := b
  induction tree generalizing path place with
  | file content modified =>
    obtain rfl := List.mem_singleton.1 hx
    exact ⟨place, .top⟩
  | directory modified children ih =>
    rw [files_of_isFolder rfl] at hx
    obtain ⟨child, hc, hx⟩ := List.mem_flatMap.1 hx
    obtain ⟨c, hmem, rfl⟩ := List.mem_map.1 hc
    obtain ⟨q, hwithin⟩ := ih c hmem _ _ hx
    exact ⟨q, (Within.child .top hc).trans hwithin⟩

end Branch

namespace LocalFiles

/-! ### Canonical paths -/

/-- The path is in the form that paths are brought to. -/
def IsCanonical (path : Bytes) : Prop :=
  ∃ segments, path = ofSegments segments ∧
    ∀ s ∈ segments, isSegment s ∧ Byte.slash ∉ s ∧ s ≠ ".."

variable {f : LocalFiles} {path logical name : Bytes}

theorem splitOn_ofSegments {segments : List Bytes}
    (h : ∀ s ∈ segments, isSegment s ∧ Byte.slash ∉ s ∧ s ≠ "..") :
    (ofSegments segments).splitOn Byte.slash = [] :: if segments = [] then [[]] else segments := by
  refine slashed_injective (Bytes.not_mem_splitOn _ _) ?_ ?_
  · intro s hs
    split at hs
    · simp at hs
      rw [hs]
      exact List.not_mem_nil
    · rcases List.mem_cons.1 hs with rfl | hs
      · exact List.not_mem_nil
      · exact (h s hs).2.1
  · rw [slashed_splitOn]
    cases segments with
    | nil => rfl
    | cons s rest => rfl

/-- What is canonical stays as it is. -/
theorem IsCanonical.normalize_eq (h : IsCanonical path) : normalize path = .ok path := by
  obtain ⟨segments, rfl, hsegments⟩ := h
  have hempty : isSegment [] = false := rfl
  have hup : (".." : Bytes) ∉ [] :: if segments = [] then [[]] else segments := by
    split
    · decide
    · rw [List.mem_cons, not_or]
      exact ⟨by decide, fun hmem => (hsegments _ hmem).2.2 rfl⟩
  have hkept : ([] :: if segments = [] then [[]] else segments).filter isSegment = segments := by
    rw [List.filter_cons_of_neg (by rw [hempty]; exact Bool.false_ne_true)]
    split
    · next hnil => rw [hnil]; rfl
    · exact List.filter_eq_self.2 fun s hs => (hsegments s hs).1
  rw [normalize, splitOn_ofSegments hsegments, if_neg (mt List.contains_iff_mem.1 hup), hkept]

/-- Paths are brought to their canonical form. -/
theorem isCanonical_of_normalize (h : normalize path = .ok logical) : IsCanonical logical := by
  rw [normalize] at h
  split at h
  · cases h
  next hup =>
  cases h
  refine ⟨_, rfl, fun s hs => ⟨(List.mem_filter.1 hs).2, ?_, ?_⟩⟩
  · exact Bytes.not_mem_splitOn _ path s (List.mem_filter.1 hs).1
  · rintro rfl
    exact hup (List.contains_iff_mem.2 (List.mem_filter.1 hs).1)

/-- A canonical path is the root, or it has more than one slash in it. -/
theorem IsCanonical.eq_slash_or (h : IsCanonical path) :
    path = [Byte.slash] ∨ 1 < path.length ∧ ∃ segments, path = slashed segments ∧
      ∀ s ∈ segments, isSegment s ∧ Byte.slash ∉ s ∧ s ≠ ".." := by
  obtain ⟨segments, rfl, hsegments⟩ := h
  cases segments with
  | nil => exact .inl rfl
  | cons s rest =>
    refine .inr ⟨?_, s :: rest, rfl, hsegments⟩
    have hs : s ≠ [] := by
      rintro rfl
      exact absurd (hsegments [] List.mem_cons_self).1 (by decide)
    have hpos := List.length_pos_iff.2 hs
    show 1 < (slashed (s :: rest)).length
    rw [slashed_cons, List.length_cons, List.length_append]
    omega

/-- The path of an entry of a directory other than the root. -/
theorem child_of_length (h : 1 < path.length) (name : Bytes) :
    child path name = path ++ Byte.slash :: name := by
  have hne : path ≠ [Byte.slash] := by
    rintro rfl
    exact absurd h (by decide)
  rw [child, if_neg (mt beq_iff_eq.1 hne)]

theorem resolve_of_length (f : LocalFiles) (h : 1 < path.length) :
    f.resolve path = f.root ++ path := by
  have hne : path ≠ [Byte.slash] := by
    rintro rfl
    exact absurd h (by decide)
  rw [resolve, if_neg (mt beq_iff_eq.1 hne)]

theorem resolve_slash (f : LocalFiles) :
    f.resolve [Byte.slash] = if f.root = [] then [Byte.slash] else f.root := by
  simp [resolve]

theorem isSegment_of_isName (h : Disk.IsName name) : isSegment name := by
  simp [isSegment, h.1, h.2.1]

theorem IsCanonical.child (h : IsCanonical path) (hname : Disk.IsName name)
    (hslash : Byte.slash ∉ name) : IsCanonical (child path name) := by
  have hsegment : isSegment name ∧ Byte.slash ∉ name ∧ name ≠ ".." :=
    ⟨isSegment_of_isName hname, hslash, hname.2.2⟩
  rcases h.eq_slash_or with rfl | ⟨hlength, segments, rfl, hsegments⟩
  · exact ⟨[name], (List.append_nil _).symm, List.forall_mem_singleton.2 hsegment⟩
  · refine ⟨segments ++ [name], ?_, List.forall_mem_append.2
      ⟨hsegments, List.forall_mem_singleton.2 hsegment⟩⟩
    rw [child_of_length hlength]
    cases segments <;> simp [ofSegments, slashed]

/-- The path on the disk of an entry of a directory. -/
theorem resolve_child (hroot : f.root ≠ [Byte.slash]) (h : IsCanonical path)
    (hname : name ≠ []) :
    f.resolve (LocalFiles.child path name) = LocalFiles.child (f.resolve path) name := by
  have hpos := List.length_pos_iff.2 hname
  rcases h.eq_slash_or with rfl | ⟨hlength, -⟩
  · have hchild : LocalFiles.child [Byte.slash] name = Byte.slash :: name := rfl
    rw [hchild, resolve_of_length f (by rw [List.length_cons]; omega)]
    by_cases hnil : f.root = []
    · rw [resolve_slash, if_pos hnil, hnil]
      rfl
    · rw [resolve_slash, if_neg hnil, LocalFiles.child, if_neg (mt beq_iff_eq.1 hroot)]
  · have hlong : 1 < (f.root ++ path).length := by
      rw [List.length_append]
      omega
    rw [child_of_length hlength, resolve_of_length f hlength, child_of_length hlong,
      resolve_of_length f (by rw [List.length_append]; omega), List.append_assoc]

/-! ### Branches that are shown -/

/-- The status of the root of a branch. -/
def statusAt (f : LocalFiles) (b : Branch) : FileStatus :=
  statusOf b.path (f.resolve b.path) b.tree.root

/-- The status of a file. -/
def statusFor (f : LocalFiles) (x : FoundFile) : FileStatus :=
  statusOf x.path (f.resolve x.path) (.file x.content x.modified)

theorem path_statusAt (f : LocalFiles) (b : Branch) : (f.statusAt b).path = b.path := by
  obtain ⟨path, place, tree⟩ := b
  cases tree <;> rfl

theorem isFolder_statusAt (f : LocalFiles) (b : Branch) :
    (f.statusAt b).isFolder = b.isFolder := by
  obtain ⟨path, place, tree⟩ := b
  cases tree <;> rfl

/-- The entries of a directory whose paths are not too long for the disk. -/
def reachable (f : LocalFiles) (b : Branch) : List Branch :=
  b.children.filter fun c => (f.resolve c.path).length ≤ Disk.maxPath

/-- The directories among what is listed. -/
theorem listed_folders (f : LocalFiles) (b : Branch) :
    ((b.children.map f.statusAt).filter (·.isFolder)).map (·.path) = b.folders.map (·.path) := by
  simp only [List.filter_map, List.map_map, Function.comp_def, isFolder_statusAt, path_statusAt,
    Branch.folders]

/-- The files among what is listed. -/
theorem listed_files (f : LocalFiles) (b : Branch) :
    (b.children.map f.statusAt).filter (!·.isFolder) = b.ownFiles.map f.statusFor := by
  rw [Branch.ownFiles]
  induction b.children with
  | nil => rfl
  | cons c rest ih =>
    obtain ⟨path, place, tree⟩ := c
    rw [List.map_cons, List.filter_cons, List.filter_cons, isFolder_statusAt, ih]
    cases tree <;> rfl

/-- A branch stands on the disk: its path is canonical and leads to its place, where its tree
    stands. -/
structure Stands (f : LocalFiles) (d : Disk) (b : Branch) : Prop where
  root_ne : f.root ≠ [Byte.slash]
  isCanonical : IsCanonical b.path
  zero_not_mem : 0 ∉ f.resolve b.path
  find_eq : d.find true (f.resolve b.path) = .ok (b.place, b.tree.root)
  on : b.tree.On d b.place

/-- A branch is shown: it stands on the disk, and no path in it is too long for the disk. -/
structure Shows (f : LocalFiles) (d : Disk) (b : Branch) : Prop extends Stands f d b where
  short : ∀ c, b.Within c → (f.resolve c.path).length ≤ Disk.maxPath

namespace Stands

variable {d d' : Disk} {b c : Branch} {place : DiskPlace} {modified : Int}
  {children : List (Bytes × FileTree)}

/-- A branch is found under its path, and under all paths that this is the canonical form
    of. -/
theorem looksUp (h : f.Stands d b) (hpath : normalize path = .ok b.path) :
    LooksUp f path b.path (f.resolve b.path) := by
  have hlooks := LocalFiles.looksUp f hpath
  rwa [Bytes.toNul_of_not_mem h.zero_not_mem] at hlooks

theorem status_eq (h : f.Stands d b) (hpath : normalize path = .ok b.path) :
    f.status d path = .ok (f.statusAt b) := by
  rw [(h.looksUp hpath).status_eq, h.find_eq]
  rfl

theorem openFile_eq (h : f.Stands d b) : f.openFile d b.path = .ok ⟨b.path, b.place⟩ := by
  rw [(h.looksUp h.isCanonical.normalize_eq).openFile_eq, h.find_eq]

/-- Names in a directory that stands are names behind a text that leads to it. -/
theorem leads (h : f.Stands d ⟨path, place, .directory modified children⟩) :
    ∃ base, d.Leads base place ∧ 0 ∉ base ∧
      ∀ name, LocalFiles.child (f.resolve path) name = base ++ Byte.slash :: name := by
  have hfind := h.find_eq
  dsimp only at hfind
  by_cases hslash : f.resolve path = [Byte.slash]
  · rw [hslash] at hfind
    have hzero : 0 ∉ [Byte.slash] := by decide
    exact ⟨[], Disk.leads_nil_of_slash (Disk.leads_of_find hzero hfind), List.not_mem_nil,
      fun name => by rw [hslash]; rfl⟩
  · refine ⟨f.resolve path, Disk.leads_of_find h.zero_not_mem hfind, h.zero_not_mem, fun name => ?_⟩
    rw [LocalFiles.child, if_neg (mt beq_iff_eq.1 hslash)]

theorem proper (h : f.Stands d ⟨path, place, .directory modified children⟩)
    {c : Bytes × FileTree} (hc : c ∈ children) :
    Disk.ProperName c.1 ∧ c.2.On d (place ++ [c.1]) := by
  cases h.on with
  | directory _ _ hproper hchildren => exact ⟨hproper c hc, hchildren c hc⟩

theorem names_eq (h : f.Stands d ⟨path, place, .directory modified children⟩) :
    d.names place = children.map (·.1) := by
  cases h.on with
  | directory _ hnames _ _ => exact hnames

theorem resolve_child_eq (h : f.Stands d ⟨path, place, .directory modified children⟩)
    {c : Bytes × FileTree} (hc : c ∈ children) :
    f.resolve (LocalFiles.child path c.1) = LocalFiles.child (f.resolve path) c.1 :=
  resolve_child h.root_ne h.isCanonical (h.proper hc).1.isName.1

/-- What is in a directory is found, links followed or not, if its path is not too long. -/
theorem find_child (h : f.Stands d ⟨path, place, .directory modified children⟩)
    {c : Bytes × FileTree} (hc : c ∈ children) (followLast : Bool) :
    d.find followLast (f.resolve (LocalFiles.child path c.1)) =
      if (f.resolve (LocalFiles.child path c.1)).length ≤ Disk.maxPath
        then .ok (place ++ [c.1], c.2.root) else .error .nameTooLong := by
  obtain ⟨base, hleads, hzero, hchild⟩ := h.leads
  obtain ⟨hname, hon⟩ := h.proper hc
  have hentry := hon.entry?_eq
  rw [h.resolve_child_eq hc, hchild, List.length_append, List.length_cons]
  split
  · next hshort =>
    exact Disk.find_child hleads hzero hname hentry c.2.root_ne_link (by omega)
  · next hlong =>
    have hseen : 0 ∉ base ++ c.1 := fun hmem =>
      (List.mem_append.1 hmem).elim hzero hname.zero_not_mem
    rw [Disk.find, Disk.locate_child hleads hseen hname.slash_not_mem hname.isName.2.2
      fun target hlink => c.2.root_ne_link target (Option.some.inj (hentry.symm.trans hlink)),
      if_pos (by omega)]

/-- The branches of a directory that stands are found, unless their paths are too long. -/
theorem child (h : f.Stands d b) (hc : c ∈ b.children)
    (hshort : (f.resolve c.path).length ≤ Disk.maxPath) : f.Stands d c := by
  obtain ⟨path, place, tree⟩ := b
  cases tree with
  | file content modified => cases hc
  | directory modified children =>
    obtain ⟨c, hmem, rfl⟩ := List.mem_map.1 hc
    obtain ⟨hname, hon⟩ := h.proper hmem
    refine ⟨h.root_ne, h.isCanonical.child hname.isName hname.slash_not_mem, ?_, ?_, hon⟩
    · obtain ⟨base, -, hzero, hchild⟩ := h.leads
      dsimp only
      rw [h.resolve_child_eq hmem, hchild]
      intro hin
      rcases List.mem_append.1 hin with hin | hin
      · exact hzero hin
      · rcases List.mem_cons.1 hin with hslash | hin
        · exact absurd hslash (by decide)
        · exact hname.zero_not_mem hin
    · exact (h.find_child hmem true).trans (if_pos hshort)

/-- An entry of a directory is left out of the listing just if its path is too long. -/
theorem childStatus_value (h : f.Stands d ⟨path, place, .directory modified children⟩)
    {c : Bytes × FileTree} (hc : c ∈ children) :
    (childStatus d path (f.resolve path) c.1).value =
      if (f.resolve (LocalFiles.child path c.1)).length ≤ Disk.maxPath
        then some (f.statusAt ⟨LocalFiles.child path c.1, place ++ [c.1], c.2⟩) else none := by
  have hfind := h.find_child hc false
  rw [childStatus, statusAt]
  dsimp only
  rw [h.resolve_child_eq hc] at hfind ⊢
  -- An entry whose path is too long for the system is left out.
  by_cases hshort : (LocalFiles.child (f.resolve path) c.1).length ≤ Disk.maxPath
  · have hstatus : d.linkStatus (LocalFiles.child (f.resolve path) c.1) = .ok c.2.root := by
      rw [Disk.linkStatus, hfind, if_pos hshort]
      rfl
    simp only [hstatus, if_pos hshort]
    cases c.2 <;> rfl
  · have hstatus :
        d.linkStatus (LocalFiles.child (f.resolve path) c.1) = .error .nameTooLong := by
      rw [Disk.linkStatus, hfind, if_neg hshort]
      rfl
    simp only [hstatus, if_neg hshort]
    rfl

/-- A directory that stands is listed as it is, but for the entries whose paths are too
    long. -/
theorem list_directory (h : f.Stands d b) (hb : b.isFolder) :
    (f.onDisk.list b.path d).result = .ok ((f.reachable b).map f.statusAt) ∧
      (f.onDisk.list b.path d).state = d := by
  obtain ⟨path, place, tree⟩ := b
  cases tree with
  | file content modified => cases hb
  | directory modified children =>
    -- By induction on the children: each is listed, unless its path is too long.
    have hstatuses : ∀ cs : List (Bytes × FileTree), cs ⊆ children →
        (cs.map (·.1)).filterMap (fun name => (childStatus d path (f.resolve path) name).value) =
          ((cs.map fun c => (⟨LocalFiles.child path c.1, place ++ [c.1], c.2⟩ : Branch)).filter
            fun c => (f.resolve c.path).length ≤ Disk.maxPath).map f.statusAt := by
      intro cs hcs
      induction cs with
      | nil => rfl
      | cons c cs ih =>
        obtain ⟨hc, hcs⟩ := List.cons_subset.1 hcs
        rw [List.map_cons, List.filterMap_cons, h.childStatus_value hc, ih hcs, List.map_cons,
          List.filter_cons]
        by_cases hshort : (f.resolve (LocalFiles.child path c.1)).length ≤ Disk.maxPath
        · simp [hshort]
        · simp [hshort]
    have hslash : ∀ name ∈ d.names place, Byte.slash ∉ name := by
      rw [h.names_eq]
      exact List.forall_mem_map.2 fun c hc => (h.proper hc).1.slash_not_mem
    have hlist : f.list d path = .ok (directoryEntries d path (f.resolve path) place) := by
      rw [(h.looksUp h.isCanonical.normalize_eq).list_eq, h.find_eq]
      rfl
    simp only [onDisk, hlist, value_directoryEntries hslash, h.names_eq,
      hstatuses children (List.Subset.refl _), reachable, Branch.children, and_self]

/-- A file that is made or changed elsewhere is of no matter. -/
theorem rewritten {q : DiskPlace} {content : Bytes} (h : f.Stands d b)
    (hd : Disk.Rewritten d d' q content) (hapart : ¬ b.place <+: q) : f.Stands d' b where
  root_ne := h.root_ne
  isCanonical := h.isCanonical
  zero_not_mem := h.zero_not_mem
  find_eq := by
    have hfind := h.find_eq
    have hplace : d'.entry? b.place = d.entry? b.place :=
      hd.other _ fun heq => hapart (heq ▸ List.prefix_refl _)
    obtain ⟨path, place, tree⟩ := b
    cases tree with
    | file content modified => exact Disk.find_file_sameWays hfind hd.sameWays hplace
    | directory modified children => exact Disk.find_sameWays hfind hd.sameWays hplace
  on := h.on.rewritten hd hapart

end Stands

namespace Shows

variable {d d' : Disk} {b c : Branch}

/-- The branches of a directory that is shown are shown as well. -/
theorem child (h : f.Shows d b) (hc : c ∈ b.children) : f.Shows d c where
  toStands := h.toStands.child hc (h.short c (.child .top hc))
  short e he := h.short e ((Branch.Within.child .top hc).trans he)

/-- All branches of a branch that is shown are shown. -/
theorem within (h : f.Shows d b) (hc : b.Within c) : f.Shows d c := by
  induction hc with
  | top => exact h
  | child _ hc ih => exact ih.child hc

/-- All entries of a directory that is shown are listed. -/
theorem reachable_eq (h : f.Shows d b) : f.reachable b = b.children :=
  List.filter_eq_self.2 fun c hc => decide_eq_true (h.short c (.child .top hc))

/-- A file that is made or changed elsewhere is of no matter. -/
theorem rewritten {q : DiskPlace} {content : Bytes} (h : f.Shows d b)
    (hd : Disk.Rewritten d d' q content) (hapart : ¬ b.place <+: q) : f.Shows d' b where
  toStands := h.toStands.rewritten hd hapart
  short := h.short

end Shows

end LocalFiles

end PageServer
