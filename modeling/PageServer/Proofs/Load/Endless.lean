import PageServer.Proofs.Files.Hidden
import PageServer.Proofs.Files.Lookup
import PageServer.Proofs.Load.Termination

/-!
# Which walks come to an end

A load walks the directories below the root of local files while pages are written on the same
disk. As long as the directories stay the same, and the disk sees all of the path, the walk
comes over, and no directory is listed twice. So does the walk of a path that the disk sees a
part of, if there is nothing in the directory that is seen. But if there is something in it,
the walk is never over, and all that is listed is this one directory, again and again
(`Chronicle.over_or_circles`).
-/

namespace PageServer

namespace LocalFiles

open Load

variable {f : LocalFiles} {d : Disk} {top b c : Branch} {path logical : Bytes}

/-- Hidden names are those of the canonical path. -/
theorem hiddenNames_of_normalize (h : normalize path = .ok logical) (f : LocalFiles) (d : Disk) :
    f.hiddenNames d path = f.hiddenNames d logical := by
  have hpaths : f.paths path = .ok (logical, f.resolve logical) := by
    rw [paths, h]
    rfl
  have hpaths' : f.paths logical = .ok (logical, f.resolve logical) := by
    rw [paths, (isCanonical_of_normalize h).normalize_eq]
    rfl
  rw [hiddenNames, hiddenNames, hpaths, hpaths']

/-- The names hidden behind a directory that stands are those in it. -/
theorem Stands.hiddenNames_eq {place : DiskPlace} {modified : Int}
    {children : List (Bytes × FileTree)} {seen : Bytes}
    (h : f.Stands d ⟨seen, place, .directory modified children⟩)
    (hnormal : normalize path = .ok logical) (hzero : 0 ∈ f.resolve logical)
    (hseen : (f.resolve logical).toNul = f.resolve seen) :
    f.hiddenNames d path = children.map (·.1) := by
  have hfind : d.find true (f.resolve logical) = .ok (place, .directory modified) := by
    rw [← d.find_toNul, hseen]
    exact h.find_eq
  have hpaths : f.paths path = .ok (logical, f.resolve logical) := by
    rw [paths, hnormal]
    rfl
  rw [hiddenNames, hpaths]
  dsimp only
  rw [if_pos hzero, hfind]
  exact h.names_eq

/-- Only a path that the disk sees a part of has hidden names. -/
theorem exists_hides_of_hiddenNames (h : f.hiddenNames d path ≠ []) :
    ∃ logical, normalize path = .ok logical ∧ f.HidesAs logical logical := by
  rcases hnormal : normalize path with e | logical
  · rw [hiddenNames, paths, hnormal] at h
    exact absurd rfl h
  · refine ⟨logical, rfl, isCanonical_of_normalize hnormal, ?_, rfl⟩
    have hpaths : f.paths path = .ok (logical, f.resolve logical) := by
      rw [paths, hnormal]
      rfl
    by_contra hzero
    rw [hiddenNames, hpaths] at h
    dsimp only at h
    rw [if_neg hzero] at h
    exact h rfl

/-- Hidden names in a directory are directories with the same names in them. -/
theorem HidesAs.exists_list (h : f.HidesAs logical path) (hroot : f.root ≠ [Byte.slash])
    (hnames : f.hiddenNames d logical ≠ [])
    (hproper : ∀ name ∈ f.hiddenNames d logical, Disk.ProperName name)
    (hlogical : f.HidesAs logical logical) :
    ∃ entries, (f.onDisk.list path d).result = .ok entries ∧ entries ≠ [] ∧
      ∀ x ∈ entries, x.isFolder ∧ f.HidesAs logical x.path := by
  have hsame : f.hiddenNames d path = f.hiddenNames d logical := by
    rw [h.hiddenNames_eq, hlogical.hiddenNames_eq]
  obtain ⟨⟨entries, hlist, hall⟩, -⟩ := exists_of_hiddenNames h (hsame ▸ hnames)
  have hfolders := folders_hidden h hlist
  rw [List.filter_eq_self.2 hall, hsame] at hfolders
  refine ⟨entries, hlist, ?_, fun x hx => ⟨hall x hx, ?_⟩⟩
  · rintro rfl
    exact hnames (List.map_eq_nil_iff.1 hfolders.nil_eq.symm)
  · have hmem := hfolders.mem_iff.1 (List.mem_map_of_mem (f := (·.path)) hx)
    obtain ⟨name, hname, hpath⟩ := List.mem_map.1 hmem
    rw [← hpath]
    exact h.child hroot (hproper name hname)

end LocalFiles

namespace Load

open LocalFiles

variable {f : LocalFiles} {p : LocalPages} {c : Chronicle Installation}
  {next : Nat → Event Installation} {job : Job} {top b : Branch} {limit : Nat} {logical : Bytes}

/-- All the time these are the directories of the tree, whatever files there are. -/
def Chronicle.SameFolders (f : LocalFiles) (w : Workplace Installation) (c : Chronicle Installation)
    (next : Nat → Event Installation) (top : Branch) : Prop :=
  ∀ k, ∃ b, b.bare = top.bare ∧ f.Stands (c.upTo w next k).state.disk b

/-- The walk of the job comes over, and in it no directory of the disk is listed twice. If
    pages can be of the size that they have, the run ends then. -/
def Chronicle.ComesOver (f : LocalFiles) (w : Workplace Installation) (c : Chronicle Installation)
    (next : Nat → Event Installation) (job : Job) : Prop :=
  ∃ k r, next k = .work ∧ (c.upTo w next k).Over w job r ∧ (c.upTo w next k).ended = c.ended ∧
    ((listedIn (c.talk w next job.path k)).map
      fun q => c.state.disk.find true (f.resolve q)).Nodup ∧
    (Job.CanHold w.pages.pageSize →
      ∃ st, (c.upTo w next (k + 1)).ended = c.ended ++ [(job.path, st)])

/-- The walk of the job is never over, and again and again one directory is listed. -/
def Chronicle.GoesInCircles (f : LocalFiles) (w : Workplace Installation)
    (c : Chronicle Installation) (next : Nat → Event Installation) (job : Job) : Prop :=
  (∀ k, (c.upTo w next k).ended = c.ended ∧ ∀ r, ¬ (c.upTo w next k).Over w job r) ∧
    ∃ seen : Bytes, (∀ k, ∀ q ∈ listedIn (c.talk w next job.path k), (f.resolve q).toNul = seen) ∧
      ∀ n, ∃ k, n ≤ (listedIn (c.talk w next job.path k)).length

/-- What a path leads to is a directory of the tree, if the directories below the root of the
    files are those of the tree. -/
theorem exists_folder_of_status {d : Disk} {b' : Branch} (hstands : f.Stands d b')
    (hbare : b'.bare = top.bare) (htop : top.path = [Byte.slash]) (hfolder : top.isFolder)
    (hnormal : normalize job.path = .ok logical) (hzero : 0 ∉ f.resolve logical)
    {root : FileStatus} (hroot : f.status d job.path = .ok root) (hroot' : root.isFolder) :
    ∃ b, f.Reaches top b ∧ b.isFolder ∧ b.path = logical := by
  obtain ⟨place, m, hfind⟩ := (status_of_normalize hnormal hroot).2 hroot'
  have hfolder' : b'.isFolder := by
    rw [← Branch.isFolder_bare, hbare, Branch.isFolder_bare, hfolder]
  have hpath' : b'.path = [Byte.slash] := by
    rw [← Branch.path_bare, hbare, Branch.path_bare, htop]
  have hlogical := isCanonical_of_normalize hnormal
  obtain ⟨e, he, rfl⟩ := hstands.exists_of_find
    (.inr ⟨hfolder', hpath' ▸ hlogical.slash_isPrefix⟩) hlogical hzero hfind
  -- What stands there is a directory, since one was found.
  have hefolder : e.isFolder := by
    have hsame := (hstands.reaches he).find_eq.symm.trans hfind
    obtain ⟨path, place, tree⟩ := e
    cases tree with
    | file content modified => cases hsame
    | directory modified children => rfl
  have hreaches := he.bare hefolder
  rw [hbare] at hreaches
  obtain ⟨b, hb, hbe⟩ := exists_reaches_of_bare hreaches
  refine ⟨b, hb, ?_, ?_⟩
  · rw [← Branch.isFolder_bare, hbe, Branch.isFolder_bare, hefolder]
  · rw [← Branch.path_bare, hbe, Branch.path_bare]

namespace Chronicle

section Ends

variable (ho : (c.service (.ofDisk f p)).Orderly limit c.accepted c.begun c.ended)
  (hbegun : c.Begun (.ofDisk f p) job) (hworks : GetsOn next)

include ho hbegun hworks

/-- A walk of directories that are listed as the same every time comes over. -/
theorem comesOver_of_charted {folders : Bytes → List Bytes} {first : Bytes} {all : List Bytes}
    (hstatus : ∀ k root, f.status (c.upTo (.ofDisk f p) next k).state.disk job.path = .ok root →
      root.isFolder → root.path = first)
    (hlist : ∀ k q entries,
      (f.onDisk.list q (c.upTo (.ofDisk f p) next k).state.disk).result = .ok entries →
        Load.Reaches folders first q → foldersOf entries = folders q)
    (hvisits : Visits folders [first] all)
    (honce : (all.map fun q => c.state.disk.find true (f.resolve q)).Nodup) :
    c.ComesOver f (.ofDisk f p) next job := by
  have hw := apart_ofDisk f p
  -- Whatever the work asks for, the answers fit to the chart of the directories.
  have hcharted : ∀ k call, Charted folders job.path first
      ⟨call, ((Workplace.ofDisk f p).perform job.path call
        (c.upTo (.ofDisk f p) next k).state).result⟩ := by
    refine fun k call =>
      ⟨sound_ofDisk f p job.path call _, fun root hx => ?_, fun q entries hx => ?_⟩
    · obtain ⟨rfl, hr⟩ := Exchange.mk.inj hx
      exact hstatus k root (eq_of_heq hr)
    · obtain ⟨rfl, hr⟩ := Exchange.mk.inj hx
      exact hlist k q entries (eq_of_heq hr)
  obtain ⟨k, r, hk, hover, hended, hlisted, hfails⟩ :=
    exists_walk_over hw ho hbegun hworks hcharted hvisits
  refine ⟨k, r, hk, hover, hended, honce.sublist (hlisted.sublist.map _), fun hcan => ?_⟩
  obtain ⟨st, hst⟩ := hover.exists_ended hw fun e he => (hfails e he).resolve_right (not_not.2 hcan)
  rw [upTo_succ, hk]
  exact ⟨st, hended ▸ hst⟩

/-- A path that does not lead to a directory is not walked. -/
theorem comesOver_of_file
    (hstatus : ∀ k root, f.status (c.upTo (.ofDisk f p) next k).state.disk job.path = .ok root →
      root.isFolder = false) : c.ComesOver f (.ofDisk f p) next job := by
  -- No directory is to be listed; a path that is refused stands for one.
  have hvisits : Visits (fun _ => []) [(".." : Bytes)] [".."] := .cons (by simpa using Visits.nil)
  refine comesOver_of_charted ho hbegun hworks (fun k root hroot hfolder => ?_)
    (fun k q entries hlist hq => ?_) hvisits (List.nodup_singleton _)
  · rw [hstatus k root hroot] at hfolder
    cases hfolder
  · obtain rfl : q = ".." := by
      induction hq with
      | top => rfl
      | child _ hq => cases hq
    cases hlist

/-- A path that the disk sees a part of is walked in one round, if nothing is hidden. -/
theorem comesOver_of_hides (hnormal : normalize job.path = .ok logical)
    (hzero : 0 ∈ f.resolve logical)
    (hnames : ∀ k, f.hiddenNames (c.upTo (.ofDisk f p) next k).state.disk job.path = []) :
    c.ComesOver f (.ofDisk f p) next job := by
  have hhides : f.HidesAs logical logical := ⟨isCanonical_of_normalize hnormal, hzero, rfl⟩
  have hvisits : Visits (fun _ => []) [logical] [logical] := .cons (by simpa using Visits.nil)
  refine comesOver_of_charted ho hbegun hworks
    (fun k root hroot _ => (status_of_normalize hnormal hroot).1)
    (fun k q entries hlist hq => ?_) hvisits (List.nodup_singleton _)
  obtain rfl : q = logical := by
    induction hq with
    | top => rfl
    | child _ hq => cases hq
  have hfolders := folders_hidden hhides hlist
  rw [← hiddenNames_of_normalize hnormal, hnames k] at hfolders
  exact hfolders.eq_nil

/-- A path of a directory of the tree is walked through the directories below it. -/
theorem comesOver_of_folder {b : Branch} 
    (hstands : f.Stands c.state.disk top) (hdirs : c.SameFolders f (.ofDisk f p) next top)
    (hb : f.Reaches top b) (hfolder : b.isFolder) (hnormal : normalize job.path = .ok b.path) :
    c.ComesOver f (.ofDisk f p) next job := by
  have hbstands := hstands.reaches hb
  obtain ⟨all, hvisits⟩ := hbstands.exists_visits hfolder
  obtain ⟨hnodup, hreaches, -⟩ :=
    (Tidy.start (f.foldersAt c.state.disk) b.path).visits
      (hbstands.branching hfolder) hvisits
  refine comesOver_of_charted ho hbegun hworks
    (fun k root hroot _ => (status_of_normalize hnormal hroot).1) (fun k q entries hlist hq => ?_)
    hvisits ?_
  · obtain ⟨e, he, hefolder, rfl⟩ := hbstands.exists_of_reaches hfolder hq
    obtain ⟨b', hbare, hstands'⟩ := hdirs k
    obtain ⟨entries', hentries', hfolders⟩ :=
      hstands'.list_folders_of_bare hbare (hb.trans he) hefolder
    obtain rfl := Except.ok.inj (hlist.symm.trans hentries')
    rw [hbstands.foldersAt_eq he hefolder]
    exact hfolders
  · -- Directories at one place of the disk have one path.
    refine hnodup.map_on fun q hq q' hq' heq => ?_
    obtain ⟨e, he, -, rfl⟩ := hbstands.exists_of_reaches hfolder (hreaches q hq)
    obtain ⟨e', he', -, rfl⟩ := hbstands.exists_of_reaches hfolder (hreaches q' hq')
    rw [(hbstands.reaches he).find_eq, (hbstands.reaches he').find_eq, Except.ok.injEq,
      Prod.mk.injEq] at heq
    exact he.path_eq_of_place_eq he' heq.1

/-- A path that the disk sees all of is walked through the directories of the tree. -/
theorem comesOver_of_tree (htop : top.path = [Byte.slash])
    (hfolder : top.isFolder) (hstands : f.Stands c.state.disk top)
    (hdirs : c.SameFolders f (.ofDisk f p) next top) (hnormal : normalize job.path = .ok logical)
    (hzero : 0 ∉ f.resolve logical) : c.ComesOver f (.ofDisk f p) next job := by
  by_cases hwhole : ∃ b, f.Reaches top b ∧ b.isFolder ∧ b.path = logical
  · obtain ⟨b, hb, hbfolder, rfl⟩ := hwhole
    exact comesOver_of_folder ho hbegun hworks hstands hdirs hb hbfolder hnormal
  · refine comesOver_of_file ho hbegun hworks fun k root hroot => ?_
    refine eq_false_of_ne_true fun hroot' => hwhole ?_
    obtain ⟨b', hbare, hstands'⟩ := hdirs k
    exact exists_folder_of_status hstands' hbare htop hfolder hnormal hzero hroot hroot'

end Ends

/-- A walk goes in circles if names are hidden in what the disk sees of the path. -/
theorem goesInCircles_of_hides
    (ho : (c.service (.ofDisk f p)).Orderly limit c.accepted c.begun c.ended)
    (hbegun : c.Begun (.ofDisk f p) job) (hworks : GetsOn next) (hroot : f.root ≠ [Byte.slash])
    (hgoes : job.cancelled = false) (hstop : Unstopped next job.path)
    (hnames : ∀ k, f.hiddenNames (c.upTo (.ofDisk f p) next k).state.disk job.path ≠ [] ∧
      ∀ name ∈ f.hiddenNames (c.upTo (.ofDisk f p) next k).state.disk job.path,
        Disk.ProperName name) :
    c.GoesInCircles f (.ofDisk f p) next job := by
  obtain ⟨logical, hnormal, hhides⟩ := exists_hides_of_hiddenNames (hnames 0).1
  simp only [hiddenNames_of_normalize hnormal] at hnames
  -- Each hidden path is listed with entries that are hidden directories again.
  have hlist : ∀ k q, f.HidesAs logical q → ∃ entries,
      (f.onDisk.list q (c.upTo (.ofDisk f p) next k).state.disk).result = .ok entries ∧
        entries ≠ [] ∧ ∀ e ∈ entries, e.isFolder ∧ f.HidesAs logical e.path :=
    fun k q hq => hq.exists_list hroot (hnames k).1 (hnames k).2 hhides
  have hstatus : ∀ k, ∃ root,
      f.status (c.upTo (.ofDisk f p) next k).state.disk job.path = .ok root ∧ root.isFolder ∧
        f.HidesAs logical root.path := by
    intro k
    obtain ⟨root, hroot, hfolder, hpath⟩ := (exists_of_hiddenNames hhides (hnames k).1).2
    refine ⟨root, (status_eq_of_normalize hnormal f _).trans hroot, hfolder, ?_⟩
    rw [hpath]
    exact hhides
  obtain ⟨hnever, hmore⟩ := never_over (apart_ofDisk f p) ho hbegun hgoes hstop hstatus hlist
  exact ⟨fun k => ⟨(hnever k).1, (hnever k).2.1⟩, (f.resolve logical).toNul,
    fun k q hq => ((hnever k).2.2 q hq).toNul_eq, hmore hworks⟩

/-- A walk comes over, with no directory listed twice, if the directories below the root of the
    files stay the same, whatever files there are, and the disk sees all of the path, or there is
    nothing in what it sees. But if there is something in it all the time, the walk goes in
    circles, unless the load is told to stop. -/
theorem over_or_circles (ho : (c.service (.ofDisk f p)).Orderly limit c.accepted c.begun c.ended)
    (hbegun : c.Begun (.ofDisk f p) job) (hworks : GetsOn next)
    (htop : top.path = [Byte.slash])
    (hfolder : top.isFolder) (hstands : f.Stands c.state.disk top)
    (hdirs : c.SameFolders f (.ofDisk f p) next top) :
    (0 ∉ job.path ∨ (∀ k, f.hiddenNames (c.upTo (.ofDisk f p) next k).state.disk job.path = []) →
      c.ComesOver f (.ofDisk f p) next job) ∧
    ((∀ k, f.hiddenNames (c.upTo (.ofDisk f p) next k).state.disk job.path ≠ [] ∧
        ∀ name ∈ f.hiddenNames (c.upTo (.ofDisk f p) next k).state.disk job.path,
          Disk.ProperName name) →
      job.cancelled = false → Unstopped next job.path →
        c.GoesInCircles f (.ofDisk f p) next job) := by
  refine ⟨fun hseen => ?_, fun hnames hgoes hstop =>
    goesInCircles_of_hides ho hbegun hworks hstands.root_ne hgoes hstop hnames⟩
  rcases hnormal : normalize job.path with e | logical
  · refine comesOver_of_file ho hbegun hworks fun k root hroot => ?_
    rw [LocalFiles.status, hnormal] at hroot
    cases hroot
  -- A path with a NUL byte hides what is behind it; any other one leads into the tree.
  by_cases hzero : 0 ∈ f.resolve logical
  · refine comesOver_of_hides ho hbegun hworks hnormal hzero (hseen.resolve_left fun hpath => ?_)
    exact hstands.zero_not_mem_of_normalize hnormal hpath hzero
  · exact comesOver_of_tree ho hbegun hworks htop hfolder hstands hdirs hnormal hzero

section Small

/-- The names in the directory are hidden behind a NUL byte. -/
theorem hiddenNames_small (k : Nat) :
    SmallDisk.files.hiddenNames ((SmallDisk.begun "/d\x00x" {}).upTo
      (.ofDisk SmallDisk.files SmallDisk.pages) (fun _ => .work) k).state.disk "/d\x00x" =
        ["a", "e"] := by
  have hstands := SmallDisk.stands_upTo (c := SmallDisk.begun "/d\x00x" {}) rfl k
  have hnormal : normalize "/d\x00x" = .ok "/d\x00x" := rfl
  exact (hstands.child (List.mem_singleton_self _) (by decide)).hiddenNames_eq hnormal (by decide)
    (by decide)

/-- The load of the directory, with a NUL byte behind its path, begins. -/
theorem begins_small : (SmallDisk.begun "/d\x00x" {}).Begun
    (.ofDisk SmallDisk.files SmallDisk.pages) { path := "/d\x00x", options := {} } := ⟨rfl, rfl⟩

/-- The directory is listed, and then the one in it; with a NUL byte behind its path, it is
    listed again and again. -/
theorem over_or_circles_small :
    (SmallDisk.begun "/d" {}).ComesOver SmallDisk.files (.ofDisk SmallDisk.files SmallDisk.pages)
        (fun _ => .work) { path := "/d", options := {} } ∧
      (SmallDisk.begun "/d\x00x" {}).GoesInCircles SmallDisk.files
        (.ofDisk SmallDisk.files SmallDisk.pages) (fun _ => .work)
        { path := "/d\x00x", options := {} } := by
  have hworks : GetsOn fun _ => Event.work (σ := Installation) := fun k => ⟨k, Nat.le_refl k, rfl⟩
  have hdirs : ∀ {c : Chronicle Installation}, c.state.disk = SmallDisk.disk →
      c.SameFolders SmallDisk.files (.ofDisk SmallDisk.files SmallDisk.pages) (fun _ => .work)
        SmallDisk.top := fun hdisk k => ⟨SmallDisk.top, rfl, SmallDisk.stands_upTo hdisk k⟩
  have hbegun : (SmallDisk.begun "/d" {}).Begun (.ofDisk SmallDisk.files SmallDisk.pages)
    { path := "/d", options := {} } := ⟨rfl, rfl⟩
  have hover := over_or_circles (SmallDisk.orderly_begun "/d" {}) hbegun hworks
    rfl rfl SmallDisk.stands (hdirs rfl)
  have hcircles := over_or_circles (SmallDisk.orderly_begun "/d\x00x" {}) begins_small hworks
    rfl rfl SmallDisk.stands (hdirs rfl)
  refine ⟨hover.1 (.inl (by decide)), hcircles.2 (fun k => ?_) rfl fun _ _ => nofun⟩
  rw [hiddenNames_small]
  exact ⟨by decide, by decide⟩

/-- Not every walk of a finite tree comes over. -/
theorem not_always_over :
    ¬ ∀ (f : LocalFiles) (p : LocalPages) (c : Chronicle Installation)
      (next : Nat → Event Installation) (job : Job) (top : Branch),
      (c.service (.ofDisk f p)).Orderly 128 c.accepted c.begun c.ended →
      c.Begun (.ofDisk f p) job → GetsOn next → top.path = [Byte.slash] → top.isFolder →
      (∀ k, f.Stands (c.upTo (.ofDisk f p) next k).state.disk top) →
        ∃ k r, (c.upTo (.ofDisk f p) next k).Over (.ofDisk f p) job r := by
  intro hall
  obtain ⟨k, r, hover⟩ := hall SmallDisk.files SmallDisk.pages (SmallDisk.begun "/d\x00x" {})
    (fun _ => .work) { path := "/d\x00x", options := {} } SmallDisk.top
    (SmallDisk.orderly_begun _ _) ⟨rfl, rfl⟩ (fun k => ⟨k, Nat.le_refl k, rfl⟩) rfl rfl
    fun k => SmallDisk.stands_upTo rfl k
  have hcircles := goesInCircles_of_hides (SmallDisk.orderly_begun "/d\x00x" {})
    begins_small (fun k => ⟨k, Nat.le_refl k, rfl⟩) SmallDisk.stands.root_ne rfl
    (fun _ _ => nofun) fun k => by
      rw [hiddenNames_small]
      exact ⟨by decide, by decide⟩
  exact (hcircles.1 k).2 r hover

end Small

end Chronicle

end Load

end PageServer
