import PageServer.Proofs.Load.Copy

/-!
# Directories walked in rounds

The walk of an errand goes from directory to directory (`Errand.Walks`): what was found and
what is below the directories still to be listed are together the files of the branch. A
round keeps this (`Errand.round_yields`). As the directories that come in are smaller than
the one they are in, there is less to be listed after each round, until all files are loaded
(`Errand.comes_begin`, `Errand.comes_round`).
-/

namespace PageServer.Load.Errand

variable {e : Errand} {x : Installation} {b : Branch} {rest pending : List Branch}
  {found : List FoundFile} {t : Tally}

/-! ### Rounds -/

/-- The walk has come this far: these directories are still to be listed, and these files
    were found. -/
structure Walks (e : Errand) (pending : List Branch) (found : List FoundFile) : Prop where
  within : ∀ b ∈ pending, e.top.Within b
  isFolder : ∀ b ∈ pending, b.isFolder
  perm : (found ++ pending.flatMap Branch.files).Perm e.top.files

theorem Walks.top (h : e.top.isFolder) : e.Walks [e.top] [] where
  within := List.forall_mem_singleton.2 .top
  isFolder := List.forall_mem_singleton.2 h
  perm := by
    rw [List.flatMap_singleton]
    exact .refl _

/-- The first of the directories is listed. -/
theorem Walks.next (h : e.Walks (b :: rest) found) :
    e.Walks (rest ++ b.folders) (found ++ b.ownFiles) where
  within c hc := by
    rcases List.mem_append.1 hc with hc | hc
    · exact h.within c (List.mem_cons_of_mem _ hc)
    · exact (h.within b List.mem_cons_self).child (List.mem_of_mem_filter hc)
  isFolder c hc := by
    rcases List.mem_append.1 hc with hc | hc
    · exact h.isFolder c (List.mem_cons_of_mem _ hc)
    · exact (List.mem_filter.1 hc).2
  perm := by
    have hfiles := Branch.files_perm (h.isFolder b List.mem_cons_self)
    refine .trans ?_ h.perm
    rw [List.append_assoc, List.flatMap_append, List.flatMap_cons]
    refine .append_left found ?_
    -- What is in the directory comes behind what was pending.
    refine (List.perm_append_comm.append_left b.ownFiles).trans ?_
    rw [← List.append_assoc]
    exact hfiles.symm.append_right _

theorem Walks.mem_files (h : e.Walks pending found) {file : FoundFile} (hfile : file ∈ found) :
    file ∈ e.top.files := h.perm.subset (List.mem_append_left _ hfile)

theorem Walks.distinct (h : e.Walks pending found) (hf : e.Feasible) :
    (found.map e.idOf).Nodup := by
  have hall := (h.perm.map e.idOf).nodup_iff.2 hf.distinct
  rw [List.map_append] at hall
  exact (List.nodup_append'.1 hall).1

/-- The walk, as the job knows it. -/
def walkOf (e : Errand) (pending : List Branch) (found : List FoundFile) : Walk where
  pending := pending.map (·.path)
  collected := if e.options.partialListing then [] else found.map e.files.statusFor

/-- What was loaded of the files that were found. -/
def loadedOf (e : Errand) (found : List FoundFile) : List FoundFile :=
  if e.options.partialListing then found else []

/-- These files were found, and loaded if they are not to be loaded together. -/
def Walked (e : Errand) (found : List FoundFile) (x : Installation) : Prop :=
  e.Loaded (e.loadedOf found).length (e.loadedOf found) x

/-- All files were loaded. -/
def AllLoaded (e : Errand) (x : Installation) : Prop :=
  ∃ loaded, loaded.Perm e.top.files ∧ e.Loaded loaded.length loaded x

/-- The end of a walk. -/
theorem finishWalk_yields (hf : e.Feasible) (hw : e.Walks [] found) (h : e.Walked found x) :
    e.Yields ((e.job t).finishWalk e.pages.pageSize (e.walkOf [] found)) x
      fun next y => next = .over ∧ e.AllLoaded y := by
  have hperm := hw.perm
  rw [List.flatMap_nil, List.append_nil] at hperm
  rw [Walked, loadedOf] at h
  have hoptions : (e.job t).options = e.options := rfl
  rw [Job.finishWalk, walkOf, hoptions]
  cases hpartial : e.options.partialListing
  · rw [hpartial] at h
    have hload := loadFiles_yields hf h (fun _ => hw.mem_files) (hw.distinct hf)
    refine Program.yields_bind (hload.mono fun _ y hy => Program.yields_pure ⟨rfl, found, hperm, ?_⟩)
    simpa using hy
  · rw [hpartial] at h
    exact Program.yields_pure ⟨rfl, found, hperm, h⟩

/-- A job without a filter selects all files. -/
theorem selects_job (t : Tally) (status : FileStatus) : (e.job t).selects status := rfl

/-- The first of the directories is listed, and its files are loaded if they are not to be
    loaded together with the others. -/
theorem round_yields (hf : e.Feasible) (hw : e.Walks (b :: rest) found) (h : e.Walked found x) :
    e.Yields ((e.job t).round e.pages.pageSize (e.walkOf (b :: rest) found)) x
      fun next y => next = .walk (e.walkOf (rest ++ b.folders) (found ++ b.ownFiles)) ∧
        e.Walked (found ++ b.ownFiles) y := by
  have hb := hw.within b List.mem_cons_self
  have hpending : (rest ++ b.folders).map (·.path) = rest.map (·.path) ++
      ((b.children.map e.files.statusAt).filter (·.isFolder)).map (·.path) := by
    rw [LocalFiles.listed_folders, List.map_append]
  have hoptions : (e.job t).options = e.options := rfl
  rw [Job.round]
  dsimp only [walkOf, List.map_cons]
  refine Program.yields_bind (yields_isStopped h fun y hy => ?_)
  rw [if_neg Bool.false_ne_true]
  refine Program.yields_bind (yields_list hy hb (hw.isFolder b List.mem_cons_self) fun y hy => ?_)
  simp only [selects_job, Bool.and_true, LocalFiles.listed_files, hoptions]
  rw [← hpending]
  simp only [Walked, loadedOf] at hy ⊢
  cases hpartial : e.options.partialListing
  · rw [hpartial] at hy
    refine Program.yields_pure ⟨?_, hy⟩
    simp
  · rw [hpartial] at hy
    have hload := loadFiles_yields hf hy (fun _ hfile => hw.next.mem_files
      (List.mem_append_right _ hfile)) (hw.next.distinct hf)
    refine Program.yields_bind (hload.mono fun _ y hy => Program.yields_pure ⟨rfl, ?_⟩)
    -- All that was found was loaded, so the files of this directory add to both.
    rwa [← List.length_append] at hy

/-! ### What comes after a round -/

/-- How much is below directories that are still to be listed. -/
noncomputable def weight (pending : List Branch) : Nat := (pending.map (sizeOf ·.tree)).sum

theorem weight_next (h : b.isFolder) : weight (rest ++ b.folders) < weight (b :: rest) := by
  have hlt := Branch.sizeOf_folders_lt h
  simp only [weight, List.map_append, List.sum_append, List.map_cons, List.sum_cons]
  omega

/-- What comes after a round, and how the errand stands then. There is less to be listed than
    so much. -/
inductive Comes (e : Errand) (bound : Nat) : Next → Installation → Prop
  | nothing {x : Installation} (h : e.AllLoaded x) : Comes e bound .over x
  | round {x : Installation} {pending : List Branch} {found : List FoundFile}
      (hw : e.Walks pending found) (h : e.Walked found x) (hlt : weight pending < bound) :
      Comes e bound (.walk (e.walkOf pending found)) x

/-- What comes is not changed by what is of no matter to the errand. -/
theorem Comes.calm {bound : Nat} {next : Next} {x y : Installation} (h : e.Comes bound next x)
    (hcalm : e.Calm x y) : e.Comes bound next y := by
  cases h with
  | nothing h =>
    obtain ⟨loaded, hperm, hloaded⟩ := h
    exact .nothing ⟨loaded, hperm, hcalm _ _ hloaded⟩
  | round hw h hlt => exact .round hw (hcalm _ _ h) hlt

/-- After a round there is less to be listed than before, or all files are loaded. -/
theorem comes_round (hf : e.Feasible) (hw : e.Walks pending found) (h : e.Walked found x) :
    e.Yields ((e.job t).round e.pages.pageSize (e.walkOf pending found)) x
      (e.Comes (weight pending)) := by
  cases pending with
  | nil =>
    refine (finishWalk_yields (t := t) hf hw h).mono ?_
    rintro _ y ⟨rfl, hy⟩
    exact .nothing hy
  | cons b rest =>
    refine (round_yields (t := t) hf hw h).mono ?_
    rintro _ y ⟨rfl, hy⟩
    exact .round hw.next hy (weight_next (hw.isFolder b List.mem_cons_self))

/-- A job starts with a file that is loaded, or with a directory that is to be listed. -/
theorem comes_begin (hf : e.Feasible) (h : e.Loaded 0 [] x) :
    e.Yields ((e.job t).begin e.pages.pageSize) x (e.Comes (weight [e.top] + 1)) := by
  have hpath : (e.job t).path = e.path := rfl
  have hoptions : (e.job t).options = e.options := rfl
  rw [Job.begin, hpath, hoptions]
  refine Program.yields_bind (yields_status h .top hf.normalize_eq fun y hy => ?_)
  rw [LocalFiles.isFolder_statusAt, LocalFiles.path_statusAt]
  split
  · next hfolder =>
    have hwalked : e.Walked [] y := by
      rw [Walked, loadedOf, ite_self]
      exact hy
    have hwalk : ({ pending := [e.top.path] } : Walk) = e.walkOf [e.top] [] := by
      rw [walkOf, List.map_nil, ite_self]
      rfl
    rw [hwalk]
    exact Program.yields_pure (.round (.top hfolder) hwalked (Nat.lt_succ_self _))
  · next hfile =>
    -- The path leads to a file, which is all there is.
    obtain ⟨file, hstatus, hfiles⟩ : ∃ file, e.files.statusAt e.top = e.files.statusFor file ∧
        e.top.files = [file] := by
      rcases htop : e.top with ⟨path, place, tree⟩
      cases tree with
      | file content modified => exact ⟨⟨path, content, modified⟩, rfl, rfl⟩
      | directory modified children => exact absurd (congrArg Branch.isFolder htop) hfile
    have hdistinct := hf.distinct
    have hmem : ∀ other ∈ [file], other ∈ e.top.files :=
      List.forall_mem_singleton.2 (hfiles ▸ List.mem_singleton_self file)
    have hload := loadFiles_yields hf hy hmem (by rwa [List.nil_append, ← hfiles])
    rw [hstatus]
    refine Program.yields_bind (hload.mono fun _ y hy => Program.yields_pure (.nothing ⟨[file], ?_, hy⟩))
    rw [hfiles]

end PageServer.Load.Errand
