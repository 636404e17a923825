import PageServer.Proofs.Files.Tree

/-!
# Names hidden behind a NUL byte

The disk sees of a path only what is in front of its first NUL byte. If that is a directory,
it is listed, but the disk sees none of the names that are put behind it: whatever is in the
directory is taken for the directory itself (`LocalFiles.list_hidden`). It is listed as a
directory whose path has the NUL byte in it as well, and in which the same names are hidden
(`LocalFiles.HidesAs.child`).
-/

namespace PageServer

/-! ### Links at the end of a path -/

namespace Disk

variable {d : Disk} {k : Nat} {here place : DiskPlace} {cs : List Bytes} {entry : DiskEntry}

/-- What a walk finds is found without following a link at its end, or the link is. -/
theorem found_of_walk (h : d.walk true k here cs = .ok (.found place entry)) :
    ∃ q e, d.walk false k here cs = .ok (.found q e) ∧
      (e = entry ∨ ∃ target, e = .link target) := by
  -- Only at the last component do the walks differ: one of them follows a link there.
  replace h := trail_of_walk h
  generalize hspot : Spot.found place entry = spot at h
  induction h with
  | ended => exact ⟨_, _, walk_nil, .inl (Spot.found.inj hspot).2.symm⟩
  | stay hname _ ih =>
    rw [walk_stay hname]
    exact ih hspot
  | up _ ih =>
    rw [walk_up]
    exact ih hspot
  | @down _ here name rest _ _ hname hlength hentry h ih =>
    by_cases hrest : rest = []
    · subst hrest hspot
      refine ⟨_, _, walk_end hname hlength hentry, .inl ?_⟩
      cases h
      rw [hentry]
      rfl
    · rw [walk_name hname (.inr hrest), if_neg (Nat.not_lt.2 hlength), hentry]
      exact ih hspot
  | @link _ here name target rest _ hname hlength hentry _ ih =>
    by_cases hrest : rest = []
    · subst hrest
      exact ⟨_, _, walk_end hname hlength hentry, .inr ⟨target, rfl⟩⟩
    · rw [walk_name hname (.inr hrest), if_neg (Nat.not_lt.2 hlength), hentry]
      exact ih hspot
  | file hname hlength hentry =>
    cases hspot
    exact ⟨_, _, walk_end hname hlength hentry, .inl rfl⟩
  | absent => cases hspot

/-- What a path leads to is at its end, or a link is. -/
theorem linkStatus_of_find {path : Bytes} (h : d.find true path = .ok (place, entry)) :
    ∃ e, d.linkStatus path = .ok e ∧ (e = entry ∨ ∃ target, e = .link target) := by
  obtain ⟨hempty, hlength, h⟩ := locate_eq_ok_iff.1 (find_eq_ok_iff.1 h)
  obtain ⟨q, e, hfound, he⟩ := found_of_walk h
  refine ⟨e, ?_, he⟩
  rw [linkStatus, find, locate, if_neg (mt List.isEmpty_iff.1 hempty),
    if_neg (Nat.not_lt.2 hlength), hfound]
  rfl

end Disk

/-! ### Hidden names -/

namespace LocalFiles

variable {f : LocalFiles} {d : Disk} {path logical name : Bytes} {place : DiskPlace} {m : Int}

/-- The names that are listed for a path of which the disk sees a part only. -/
def hiddenNames (f : LocalFiles) (d : Disk) (path : Bytes) : List Bytes :=
  match f.paths path with
  | .error _ => []
  | .ok (_, disk) =>
    if 0 ∈ disk then
      match d.find true disk with
      | .ok (place, .directory _) => d.names place
      | _ => []
    else []

/-- A name behind a path that the disk sees a part of is not seen. -/
theorem toNul_child {base : Bytes} (hzero : 0 ∈ base) (name : Bytes) :
    (child base name).toNul = base.toNul := by
  have hne : base ≠ [Byte.slash] := by
    rintro rfl
    exact absurd hzero (by decide)
  rw [child, if_neg (mt beq_iff_eq.1 hne), Bytes.toNul_append, if_pos hzero]

/-- An entry that is seen is listed, as what it leads to. -/
theorem childStatus_of_find {disk : Bytes} {entry : DiskEntry}
    (h : d.find true (child disk name) = .ok (place, entry)) :
    (childStatus d logical disk name).value =
      some (statusOf (child logical name) (child disk name) entry) := by
  obtain ⟨e, hlink, he⟩ := Disk.linkStatus_of_find h
  have hstatus : d.status (child disk name) = .ok entry := by
    rw [Disk.status, h]
    rfl
  simp only [childStatus, hlink]
  rcases e with m | ⟨content, m⟩ | target
  · rcases he with rfl | ⟨_, he⟩
    · rfl
    · cases he
  · rcases he with rfl | ⟨_, he⟩
    · rfl
    · cases he
  · dsimp only
    rw [hstatus]
    rfl

/-- The canonical path is seen by the disk as this one, but for what is behind a NUL byte. -/
structure HidesAs (f : LocalFiles) (logical path : Bytes) : Prop where
  isCanonical : IsCanonical path
  zero_mem : 0 ∈ f.resolve path
  toNul_eq : (f.resolve path).toNul = (f.resolve logical).toNul

/-- What is behind a hidden name is hidden as well. -/
theorem HidesAs.child (hroot : f.root ≠ [Byte.slash]) (h : f.HidesAs logical path)
    (hname : Disk.ProperName name) : f.HidesAs logical (child path name) where
  isCanonical := h.isCanonical.child hname.isName hname.slash_not_mem
  zero_mem := by
    rw [resolve_child hroot h.isCanonical hname.isName.1, LocalFiles.child]
    have hne : f.resolve path ≠ [Byte.slash] := fun heq => absurd (heq ▸ h.zero_mem) (by decide)
    rw [if_neg (mt beq_iff_eq.1 hne)]
    exact List.mem_append_left _ h.zero_mem
  toNul_eq := by
    rw [resolve_child hroot h.isCanonical hname.isName.1, toNul_child h.zero_mem, h.toNul_eq]

theorem HidesAs.find_eq (h : f.HidesAs logical path) (d : Disk) :
    d.find true (f.resolve path) = d.find true (f.resolve logical) := by
  rw [← d.find_toNul true (f.resolve path), h.toNul_eq, d.find_toNul]

/-- Hidden names are those of the directory that is seen. -/
theorem HidesAs.hiddenNames_eq (h : f.HidesAs logical path) (d : Disk) :
    f.hiddenNames d path =
      match d.find true (f.resolve logical) with
      | .ok (place, .directory _) => d.names place
      | _ => [] := by
  have hpaths : f.paths path = .ok (path, f.resolve path) := by
    rw [paths, h.isCanonical.normalize_eq]
    rfl
  rw [hiddenNames, hpaths]
  dsimp only
  rw [if_pos h.zero_mem, h.find_eq]

/-- A directory that the disk sees instead of what is in it is listed as directories. -/
theorem childStatuses_of_find {disk : Bytes} {entry : DiskEntry}
    (h : ∀ name, d.find true (child disk name) = .ok (place, entry)) (names : List Bytes) :
    (childStatuses d logical disk names).value =
      names.map fun name => statusOf (child logical name) (child disk name) entry := by
  rw [value_childStatuses, ← List.filterMap_eq_map]
  exact List.filterMap_congr fun name _ => childStatus_of_find (h name)

/-- What is listed where the disk sees a part of the path only. -/
theorem list_hidden (h : f.HidesAs logical path) (d : Disk) :
    (f.onDisk.list path d).result =
      match d.find true (f.resolve logical) with
      | .error e => .error (pathFailed "stat" path e)
      | .ok (place, .directory m) => .ok (FileStatus.sort ((d.namesRead place).map fun name =>
          statusOf (child path name) (child (f.resolve path) name) (.directory m)))
      | .ok (_, entry) => .ok [statusOf path (f.resolve path) entry] := by
  have hlist := (looksUp f h.isCanonical.normalize_eq).list_eq d
  -- What stands behind the NUL byte is not looked at, so each entry is found where the path is.
  have hseen : ∀ name, d.find true (child (f.resolve path) name) =
      d.find true (f.resolve logical) := by
    intro name
    rw [← d.find_toNul, toNul_child h.zero_mem, d.find_toNul, h.find_eq]
  rw [d.find_toNul, h.find_eq] at hlist
  rcases hfind : d.find true (f.resolve logical) with e | ⟨place, m | ⟨content, m⟩ | target⟩
  · rw [hfind] at hlist
    simp only [onDisk, hlist]
  · rw [hfind] at hlist
    simp only [onDisk, hlist]
    exact congrArg (Except.ok ∘ FileStatus.sort)
      (childStatuses_of_find (fun name => (hseen name).trans hfind) _)
  · rw [hfind] at hlist
    simp only [onDisk, hlist]
    rfl
  · rw [hfind] at hlist
    simp only [onDisk, hlist]
    rfl

/-- All that is listed of a path with hidden names are these, as directories. -/
theorem folders_hidden (h : f.HidesAs logical path) {entries : List FileStatus}
    (hlist : (f.onDisk.list path d).result = .ok entries) :
    ((entries.filter (·.isFolder)).map (·.path)).Perm
      ((f.hiddenNames d path).map (LocalFiles.child path)) := by
  rw [list_hidden h] at hlist
  rw [h.hiddenNames_eq]
  rcases hfind : d.find true (f.resolve logical) with e | ⟨place, m | ⟨content, m⟩ | target⟩
  · rw [hfind] at hlist
    cases hlist
  · rw [hfind] at hlist
    cases hlist
    refine (((FileStatus.sort_perm _).filter _).map _).trans ?_
    simp only [List.filter_map, Function.comp_def, statusOf, List.filter_true, List.map_map]
    exact (d.readOrder.perm place _).map _
  · rw [hfind] at hlist
    cases hlist
    rfl
  · rw [hfind] at hlist
    cases hlist
    rfl

/-- Where there are hidden names, they are listed, and there is a directory. -/
theorem exists_of_hiddenNames (h : f.HidesAs logical path) (hnames : f.hiddenNames d path ≠ []) :
    (∃ entries, (f.onDisk.list path d).result = .ok entries ∧ ∀ x ∈ entries, x.isFolder) ∧
      ∃ root, f.status d path = .ok root ∧ root.isFolder ∧ root.path = path := by
  rw [h.hiddenNames_eq] at hnames
  have hstatus := (looksUp f h.isCanonical.normalize_eq).status_eq d
  rw [d.find_toNul, h.find_eq] at hstatus
  rw [list_hidden h]
  rcases hfind : d.find true (f.resolve logical) with e | ⟨place, m | ⟨content, m⟩ | target⟩
  · rw [hfind] at hnames
    exact absurd rfl hnames
  · rw [hfind] at hstatus
    refine ⟨⟨_, rfl, fun x hx => ?_⟩, _, hstatus, rfl, rfl⟩
    obtain ⟨name, -, rfl⟩ := List.mem_map.1 ((FileStatus.sort_perm _).mem_iff.1 hx)
    rfl
  · rw [hfind] at hnames
    exact absurd rfl hnames
  · rw [hfind] at hnames
    exact absurd rfl hnames

end LocalFiles

end PageServer
