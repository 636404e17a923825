import PageServer.Proofs.Files.Folders

/-!
# What paths lead to in a tree

Where a tree stands below a path of local files, this path and all those behind it
(`Branch.Covers`) lead to a branch of the tree, or nowhere: walking along the segments of a path
goes from a directory to a branch in it each time (`Branch.exists_of_walk`). No path on the way
is longer than the whole, so what is found is reached (`LocalFiles.Stands.exists_of_find`).
-/

namespace PageServer

/-! ### Walks in a tree -/

theorem Disk.mem_names_of_entry? {d : Disk} {directory : DiskPlace} {name : Bytes} {e : DiskEntry}
    (h : d.entry? (directory ++ [name]) = some e) : name ∈ d.names directory := by
  have hget : d.entries.get? (directory ++ [name]) = some e := by
    cases directory <;> exact h
  have hin : Disk.nameIn? directory (directory ++ [name]) = some name := by
    rw [Disk.nameIn?, if_pos ⟨by simp, by simp⟩]
    exact List.getLast?_concat
  exact List.mem_filterMap.2 ⟨_, Table.mem_keys_iff.2 (hget ▸ Option.some_ne_none _), hin⟩

/-- Something has the name in a directory of a tree, so it is one of the branches in it. -/
theorem Branch.exists_of_entry? {d : Disk} {b : Branch} (h : b.tree.On d b.place)
    (hb : b.isFolder) {name : Bytes} {e : DiskEntry}
    (hentry : d.entry? (b.place ++ [name]) = some e) :
    ∃ c ∈ b.children, c.path = LocalFiles.child b.path name ∧ c.place = b.place ++ [name] ∧
      c.tree.On d c.place := by
  obtain ⟨path, here, tree⟩ := b
  cases h with
  | file hfile => cases hb
  | @directory _ modified children _ hnames _ hchildren =>
    have hmem := Disk.mem_names_of_entry? hentry
    dsimp only at hmem
    rw [hnames] at hmem
    obtain ⟨c, hc, rfl⟩ := List.mem_map.1 hmem
    exact ⟨_, List.mem_map_of_mem hc, rfl, rfl, hchildren c hc⟩

/-- A walk from a directory of a tree that finds something finds a branch of the tree. -/
theorem Branch.exists_of_walk {d : Disk} {k : Nat} {b : Branch} (h : b.tree.On d b.place)
    (hb : b.isFolder) {segments : List Bytes} (hnames : ∀ s ∈ segments, Disk.IsName s)
    {place : DiskPlace} {entry : DiskEntry}
    (hwalk : d.walk true k b.place segments = .ok (.found place entry)) :
    ∃ c, b.Within c ∧ c.path = segments.foldl LocalFiles.child b.path := by
  induction segments generalizing b with
  | nil => exact ⟨b, .top, rfl⟩
  | cons name rest ih =>
    obtain ⟨hname, hrest⟩ := List.forall_mem_cons.1 hnames
    rw [Disk.walk_name hname (.inl rfl)] at hwalk
    split at hwalk
    · cases hwalk
    rcases hentry : d.entry? (b.place ++ [name]) with _ | e
    · rw [hentry] at hwalk
      dsimp only at hwalk
      split at hwalk <;> cases hwalk
    -- The entry of the name is a child of the branch.
    obtain ⟨c, hc, hpath, hplace, hon⟩ := Branch.exists_of_entry? h hb hentry
    have hroot := hon.entry?_eq
    rw [hplace] at hroot
    rw [hroot] at hwalk
    have hin : b.Within c := .child .top hc
    obtain ⟨path, here, tree⟩ := c
    dsimp only at hpath hplace hroot hwalk
    subst hpath hplace
    cases tree with
    | file content modified =>
      simp only [FileTree.root] at hwalk
      split at hwalk <;> cases hwalk
      next hend =>
      exact ⟨_, hin, by rw [List.isEmpty_iff.1 hend]; rfl⟩
    | directory modified children =>
      obtain ⟨c', hc', hpath'⟩ := ih (b := ⟨_, _, .directory modified children⟩) hon rfl hrest hwalk
      exact ⟨c', hin.trans hc', hpath'⟩

/-- Names behind a text that leads to a directory are walked along from there. -/
theorem Disk.exists_locate_below {d : Disk} {base : Bytes} {place : DiskPlace}
    {segments : List Bytes}
    (h : d.Leads base place) (hzero : 0 ∉ base ++ LocalFiles.slashed segments)
    (hslash : ∀ s ∈ segments, Byte.slash ∉ s) (hne : segments ≠ []) :
    ∃ k, d.locate true (base ++ LocalFiles.slashed segments) =
      if maxPath < (base ++ LocalFiles.slashed segments).length then .error .nameTooLong
      else d.walk true k place segments := by
  obtain ⟨s, rest, rfl⟩ := List.exists_cons_of_ne_nil hne
  have hstart : isAbsolute (base ++ LocalFiles.slashed (s :: rest)) =
      isAbsolute (base ++ [Byte.slash]) := by
    cases base <;> rfl
  have hempty : ¬ (base ++ LocalFiles.slashed (s :: rest)).isEmpty := by
    rw [LocalFiles.slashed_cons]
    simp
  obtain ⟨k, hwalk⟩ := h.walk_append
  refine ⟨k, ?_⟩
  rw [locate, Bytes.toNul_of_not_mem hzero, if_neg hempty, hstart,
    components_below base hslash, hwalk _ _ (.inl rfl)]

/-- The path has no NUL bytes, and is that of the branch or of something below it. -/
def Branch.Covers (b : Branch) (path : Bytes) : Prop :=
  0 ∉ path ∧ ∀ logical, LocalFiles.normalize path = .ok logical →
    logical = b.path ∨ b.isFolder ∧ LocalFiles.child b.path [] <+: logical

namespace LocalFiles

variable {f : LocalFiles} {d : Disk} {b c top : Branch} {path logical : Bytes}

/-! ### Paths in a tree -/

theorem Reaches.trans (h : f.Reaches top b) (hc : f.Reaches b c) : f.Reaches top c := by
  induction hc with
  | top => exact h
  | child _ hc ih => exact ih.child hc

/-- The place of a branch tells its path. -/
theorem Reaches.exists_names (h : f.Reaches top c) :
    ∃ names : List Bytes, c.place = top.place ++ names ∧
      c.path = names.foldl LocalFiles.child top.path := by
  induction h with
  | top => exact ⟨[], (List.append_nil _).symm, rfl⟩
  | @child b c _ hc ih =>
    obtain ⟨names, hplace, hpath⟩ := ih
    have hmem := (mem_reachable_iff.1 hc).1
    obtain ⟨path, place, tree⟩ := b
    cases tree with
    | file content modified => cases hmem
    | directory modified children =>
      obtain ⟨⟨name, tree⟩, -, rfl⟩ := List.mem_map.1 hmem
      dsimp only at hplace hpath
      subst hplace hpath
      exact ⟨names ++ [name], by simp, by simp⟩

theorem Reaches.path_eq_of_place_eq (h : f.Reaches top b) (h' : f.Reaches top c)
    (hplace : b.place = c.place) : b.path = c.path := by
  obtain ⟨names, hb, hbpath⟩ := h.exists_names
  obtain ⟨names', hc, hcpath⟩ := h'.exists_names
  have hnames : names = names' := List.append_cancel_left (hb.symm.trans (hplace.trans hc))
  rw [hbpath, hcpath, hnames]

/-- A canonical path leads from the root along its segments. -/
theorem foldl_child_slash {segments : List Bytes}
    (h : ∀ s ∈ segments, isSegment s ∧ Byte.slash ∉ s ∧ s ≠ "..") :
    segments.foldl child [Byte.slash] = ofSegments segments := by
  induction segments using List.reverseRecOn with
  | nil => rfl
  | append_singleton segments s ih =>
    obtain ⟨hsegments, hs⟩ := List.forall_mem_append.1 h
    rw [List.foldl_append, ih hsegments]
    have hcanonical : IsCanonical (ofSegments segments) := ⟨segments, rfl, hsegments⟩
    show child (ofSegments segments) s = _
    -- Only the path without segments is a slash alone.
    rcases hcanonical.eq_slash_or with hslash | ⟨hlength, -⟩
    · cases segments with
      | nil => exact (List.append_nil _).symm
      | cons t rest =>
        have hpos : t ≠ [] := by
          rintro rfl
          exact absurd (hsegments [] List.mem_cons_self).1 (by decide)
        simp [ofSegments, hpos] at hslash
    · rw [child_of_length hlength]
      cases segments with
      | nil => exact absurd hlength (by decide)
      | cons t rest => simp [ofSegments]

/-- All branches of a tree that stands have canonical paths. -/
theorem Stands.isCanonical_within (h : f.Stands d b) (hc : b.Within c) :
    IsCanonical c.path ∧ c.tree.On d c.place := by
  induction hc with
  | top => exact ⟨h.isCanonical, h.on⟩
  | @child b' c _ hc ih =>
    obtain ⟨path, place, tree⟩ := b'
    obtain ⟨hcanonical, hon⟩ := ih
    cases hon with
    | file hfile => cases hc
    | directory _ _ hproper hchildren =>
      obtain ⟨c, hmem, rfl⟩ := List.mem_map.1 hc
      have hname := hproper c hmem
      exact ⟨hcanonical.child hname.isName hname.slash_not_mem, hchildren c hmem⟩

/-- What is in a tree is reached, if its path is not too long. -/
theorem Stands.reaches_of_within (h : f.Stands d b) (hc : b.Within c)
    (hshort : (f.resolve c.path).length ≤ Disk.maxPath) : f.Reaches b c := by
  induction hc with
  | top => exact .top
  | @child b' c hb' hc ih =>
    refine (ih ?_).child (mem_reachable_iff.2 ⟨hc, hshort⟩)
    -- The path of a directory is shorter than those of its entries.
    obtain ⟨hcanonical, hon⟩ := h.isCanonical_within hb'
    obtain ⟨path, place, tree⟩ := b'
    cases hon with
    | file hfile => cases hc
    | directory _ _ hproper _ =>
      obtain ⟨c, hmem, rfl⟩ := List.mem_map.1 hc
      dsimp only at hshort
      rw [resolve_child h.root_ne hcanonical (hproper c hmem).isName.1, LocalFiles.child] at hshort
      refine Nat.le_trans ?_ hshort
      dsimp only
      split
      · next hslash =>
        rw [beq_iff_eq.1 hslash]
        simp
      · simp

/-- A canonical path that begins with another one and a slash leads from there along its other
    segments. -/
theorem IsCanonical.exists_below (h : IsCanonical path) (hlogical : IsCanonical logical)
    (hpre : LocalFiles.child path [] <+: logical) :
    ∃ segments : List Bytes, (∀ s ∈ segments, isSegment s ∧ Byte.slash ∉ s ∧ s ≠ "..") ∧
      segments.foldl LocalFiles.child path = logical := by
  obtain ⟨front, rfl, hfront⟩ := h
  obtain ⟨segments, rfl, hsegments⟩ := hlogical
  cases front with
  | nil => exact ⟨segments, hsegments, foldl_child_slash hsegments⟩
  | cons t front =>
    obtain ⟨rest, hrest⟩ := hpre
    have hlength : 1 < (ofSegments (t :: front)).length := by
      have ht : t ≠ [] := by
        rintro rfl
        exact absurd (hfront [] List.mem_cons_self).1 (by decide)
      have hpos := List.length_pos_iff.2 ht
      show 1 < (Byte.slash :: t ++ slashed front).length
      rw [List.length_append, List.length_cons]
      omega
    rw [child_of_length hlength] at hrest
    have hne : segments ≠ [] := by
      rintro rfl
      have hboth := congrArg List.length hrest
      simp [ofSegments] at hboth
    -- The segments of the longer path are those of the shorter one, and those behind it.
    have hsplit : segments = (t :: front) ++ rest.splitOn Byte.slash := by
      obtain ⟨s, tail, rfl⟩ := List.exists_cons_of_ne_nil hne
      refine slashed_injective (fun s hs => (hsegments s hs).2.1) ?_ ?_
      · exact List.forall_mem_append.2 ⟨fun s hs => (hfront s hs).2.1, Bytes.not_mem_splitOn _ rest⟩
      · have hfolded : slashed ((t :: front) ++ rest.splitOn Byte.slash) =
            ofSegments (t :: front) ++ Byte.slash :: rest :=
          List.flatMap_append.trans (congrArg (ofSegments (t :: front) ++ ·) (slashed_splitOn rest))
        exact (hfolded.trans ((List.append_assoc _ _ _).symm.trans hrest)).symm
    rw [hsplit] at hsegments ⊢
    refine ⟨rest.splitOn Byte.slash, (List.forall_mem_append.1 hsegments).2, ?_⟩
    rw [← foldl_child_slash hfront, ← List.foldl_append, foldl_child_slash hsegments]

theorem IsCanonical.foldl_child {segments : List Bytes} (h : IsCanonical path)
    (hnames : ∀ s ∈ segments, Disk.IsName s ∧ Byte.slash ∉ s) :
    IsCanonical (segments.foldl LocalFiles.child path) := by
  induction segments generalizing path with
  | nil => exact h
  | cons s rest ih =>
    obtain ⟨hs, hrest⟩ := List.forall_mem_cons.1 hnames
    exact ih (h.child hs.1 hs.2) hrest

/-- A text leads to a directory, and paths below it are put behind this text. -/
theorem Stands.exists_base (h : f.Stands d top) (hfolder : top.isFolder) :
    ∃ base, d.Leads base top.place ∧ ∀ {segments : List Bytes}, segments ≠ [] →
      (∀ s ∈ segments, Disk.IsName s ∧ Byte.slash ∉ s) →
        f.resolve (segments.foldl LocalFiles.child top.path) = base ++ slashed segments := by
  obtain ⟨path, here, tree⟩ := top
  cases tree with
  | file content modified => cases hfolder
  | directory modified children =>
    obtain ⟨base, hleads, -, hchild⟩ := h.leads
    refine ⟨base, hleads, fun {segments} hne hnames => ?_⟩
    induction segments using List.reverseRecOn with
    | nil => exact absurd rfl hne
    | append_singleton segments s ih =>
      obtain ⟨hsegments, hs⟩ := List.forall_mem_append.1 hnames
      obtain ⟨hname, -⟩ := List.forall_mem_singleton.1 hs
      have hcanonical : IsCanonical (segments.foldl LocalFiles.child path) :=
        h.isCanonical.foldl_child hsegments
      rw [List.foldl_append, List.foldl_cons, List.foldl_nil,
        resolve_child h.root_ne hcanonical hname.1]
      by_cases hnil : segments = []
      · rw [hnil]
        exact (hchild s).trans (congrArg (base ++ ·) (List.append_nil _).symm)
      · obtain ⟨t, rest, rfl⟩ := List.exists_cons_of_ne_nil hnil
        have ht : t ≠ [] := (hsegments t List.mem_cons_self).1.1
        rw [ih hnil hsegments, child_of_length (by
          have hpos := List.length_pos_iff.2 ht
          rw [List.length_append, slashed_cons, List.length_cons, List.length_append]
          omega)]
        simp [slashed]

/-- What a path leads to that the disk sees all of, at a branch that stands or below it, is
    reached in its tree. -/
theorem Stands.exists_of_find (h : f.Stands d top)
    (hbelow : logical = top.path ∨ top.isFolder ∧ LocalFiles.child top.path [] <+: logical)
    (hlogical : IsCanonical logical) (hzero : 0 ∉ f.resolve logical)
    {place : DiskPlace} {entry : DiskEntry}
    (hfind : d.find true (f.resolve logical) = .ok (place, entry)) :
    ∃ c, f.Reaches top c ∧ c.path = logical := by
  rcases hbelow with rfl | ⟨hfolder, hpre⟩
  · exact ⟨top, .top, rfl⟩
  obtain ⟨segments, hsegments, rfl⟩ := h.isCanonical.exists_below hlogical hpre
  by_cases hnil : segments = []
  · subst hnil
    exact ⟨top, .top, rfl⟩
  have hnames : ∀ s ∈ segments, Disk.IsName s := fun s hs => by
    obtain ⟨hsegment, -, hup⟩ := hsegments s hs
    have hboth : s ≠ [] ∧ s ≠ "." := by simpa [isSegment] using hsegment
    exact ⟨hboth.1, hboth.2, hup⟩
  obtain ⟨base, hleads, hbase⟩ := h.exists_base hfolder
  have hresolve := hbase hnil fun s hs => ⟨hnames s hs, (hsegments s hs).2.1⟩
  have hfound := Disk.find_eq_ok_iff.1 hfind
  rw [hresolve] at hzero hfound
  -- Below the branch the walk goes on with the other segments of the path.
  obtain ⟨k, hlocate⟩ :=
    Disk.exists_locate_below hleads hzero (fun s hs => (hsegments s hs).2.1) hnil
  rw [hlocate] at hfound
  split at hfound
  · cases hfound
  next hshort =>
  obtain ⟨c, hwithin, hpath⟩ := Branch.exists_of_walk h.on hfolder hnames hfound
  refine ⟨c, h.reaches_of_within hwithin ?_, hpath⟩
  rw [hpath, hresolve]
  exact Nat.le_of_not_lt hshort

/-! ### Paths that are brought to their canonical form -/

/-- All paths are those of the root, or below it. -/
theorem IsCanonical.slash_isPrefix (h : IsCanonical logical) :
    LocalFiles.child [Byte.slash] [] <+: logical := by
  obtain ⟨segments, rfl, -⟩ := h
  cases segments with
  | nil => exact List.prefix_rfl
  | cons s rest => exact ⟨s ++ slashed rest, rfl⟩

theorem covers_of_root (htop : top.path = [Byte.slash]) (hfolder : top.isFolder)
    (hzero : 0 ∉ path) : top.Covers path :=
  ⟨hzero, fun _ hnormal => .inr ⟨hfolder, htop ▸ (isCanonical_of_normalize hnormal).slash_isPrefix⟩⟩

/-- The status of a path is that of its canonical form. -/
theorem status_of_normalize (h : normalize path = .ok logical) {root : FileStatus}
    (hroot : f.status d path = .ok root) :
    root.path = logical ∧ (root.isFolder →
      ∃ place m, d.find true (f.resolve logical) = .ok (place, .directory m)) := by
  rw [(looksUp f h).status_eq, d.find_toNul] at hroot
  rcases hfind : d.find true (f.resolve logical) with e | ⟨place, m | ⟨content, m⟩ | target⟩ <;>
    rw [hfind] at hroot <;> cases hroot
  · exact ⟨rfl, fun _ => ⟨place, m, rfl⟩⟩
  · exact ⟨rfl, nofun⟩
  · exact ⟨rfl, nofun⟩

theorem status_eq_of_normalize (h : normalize path = .ok logical) (f : LocalFiles) (d : Disk) :
    f.status d path = f.status d logical := by
  rw [status, status, h, (isCanonical_of_normalize h).normalize_eq]

/-- Of a path without NUL bytes the disk sees all. -/
theorem Stands.zero_not_mem_of_normalize (h : f.Stands d top)
    (hnormal : normalize path = .ok logical) (hzero : 0 ∉ path) : 0 ∉ f.resolve logical := by
  have hslash : (0 : Byte) ≠ Byte.slash := by decide
  have hroot : 0 ∉ f.root := by
    have hresolved := h.zero_not_mem
    rw [resolve] at hresolved
    split_ifs at hresolved with htop hnil
    · rw [List.isEmpty_iff.1 hnil]
      exact List.not_mem_nil
    · exact hresolved
    · exact fun hmem => hresolved (List.mem_append_left _ hmem)
  -- Every byte of a segment is one of the path.
  have hsegment : ∀ s ∈ path.splitOn Byte.slash, 0 ∉ s := by
    intro s hs hmem
    have hin : 0 ∈ slashed (path.splitOn Byte.slash) :=
      List.mem_flatMap.2 ⟨s, hs, List.mem_cons_of_mem _ hmem⟩
    rw [slashed_splitOn, List.mem_cons] at hin
    exact hin.elim hslash hzero
  have hlogical : 0 ∉ logical := by
    rw [normalize] at hnormal
    split at hnormal <;> cases hnormal
    unfold ofSegments
    split
    · simpa using hslash
    · intro hmem
      obtain ⟨s, hs, hmem⟩ := List.mem_flatMap.1 hmem
      exact (List.mem_cons.1 hmem).elim hslash (hsegment s (List.mem_filter.1 hs).1)
  rw [resolve]
  split
  · split
    · simpa using hslash
    · exact hroot
  · exact fun hmem => (List.mem_append.1 hmem).elim hroot hlogical

end LocalFiles

end PageServer
