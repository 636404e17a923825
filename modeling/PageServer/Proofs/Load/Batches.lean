import PageServer.Proofs.Load.Scene

/-!
# Batch by batch or all together

Files are loaded as soon as their directory was listed, or all together after the last
directory. As they are found in the same order, and listing changes nothing, the one comes to
the same as the other: both are one load of all the files that are found, but that they count
the files earlier or later (`Scene.Batched`). So two runs that differ in this alone write the
same pages, note the same failures and end alike (`Chronicle.alike_in_batches`).

For this a page has to be of a size that can be held. If it is not, the first file that is
opened ends the program, and how many files were counted until then is not the same
(`Chronicle.not_always_alike`).
-/

namespace PageServer.Load

open Program

variable {f : LocalFiles} {p : LocalPages} {α : Type} {s s₀ : Scene} {o : LoadOptions}
  {pageSize : Int} {ids : List Bytes} {counted files whole : List FileStatus}

namespace Scene

/-! ### How many files are counted -/

/-- The scene with another number of files counted. -/
def total (s : Scene) (n : Int) : Scene := { s with tally := { s.tally with filesTotal := n } }

@[simp]
theorem total_total (s : Scene) (n m : Int) : (s.total n).total m = s.total m := rfl

theorem total_self (s : Scene) : s.total s.tally.filesTotal = s := rfl

@[simp]
theorem reply_total (f : LocalFiles) (p : LocalPages) (c : Call) (s : Scene) (n : Int) :
    reply f p c (s.total n) = reply f p c s := by cases c <;> rfl

/-- To load files it does not matter how many are counted. -/
theorem after_total {c : Call} (h : c.Loads ids) (s : Scene) (n : Int) :
    (s.total n).after f p c = (s.after f p c).total n := by
  cases c with
  | list q => exact h.elim
  | update g =>
    have htotal := h.filesTotal s.tally n
    simp only [after, total, Exchange.count, Scene.mk.injEq, and_true, true_and]
    exact htotal
  | _ => rfl

theorem comesTo_total {prog : Program α} (h : prog.Only (Call.Loads ids)) (s : Scene) (n : Int) :
    prog.comesTo (perform f p) (s.total n) =
      ((prog.comesTo (perform f p) s).1, (prog.comesTo (perform f p) s).2.total n) := by
  induction prog generalizing s with
  | done r => rfl
  | call c follow ih =>
    rw [comesTo_call, comesTo_call]
    simp only [perform, reply_total, after_total h.1]
    exact ih _ (h.2 _) _

/-- Files are counted, and nothing else is done. -/
theorem after_count (f : LocalFiles) (p : LocalPages) (s : Scene) (n : Nat) :
    s.after f p (.update fun t => { t with filesTotal := t.filesTotal + n }) =
      s.total (s.tally.filesTotal + n) := by
  obtain ⟨disk, tally, writes⟩ := s
  simp [after, total, disk_perform, Exchange.count, Call.write?]

/-! ### Files loaded one after the other -/

/-- Two lists of files are loaded as one. -/
theorem comesTo_loadEach_append (files more : List FileStatus) (s : Scene) :
    (Job.loadEach o pageSize (files ++ more)).comesTo (perform f p) s =
      match (Job.loadEach o pageSize files).comesTo (perform f p) s with
      | (.ok _, s') => (Job.loadEach o pageSize more).comesTo (perform f p) s'
      | (.error e, s') => (.error e, s') := by
  induction files generalizing s with
  | nil => rfl
  | cons file rest ih =>
    rw [List.cons_append, Job.loadEach, Job.loadEach, comesTo_bind, comesTo_bind, comesTo_ofCall]
    have hgoes : (perform f p .isStopped s).result = .ok false := rfl
    rw [hgoes]
    simp only [Bool.false_eq_true, if_false]
    rw [comesTo_bind, comesTo_bind]
    -- The first file is loaded in the same way, and then it goes on with the others.
    rcases Program.comesTo _ _ _ with ⟨e | v, s'⟩
    · rfl
    · dsimp only
      rw [comesTo_bind, comesTo_bind, comesTo_ofCall]
      exact ih _

/-- Files behind those with which it broke off do not matter. -/
theorem comesTo_loadEach_of_error (hpre : counted <+: whole) {e : Failure} {s' : Scene}
    (h : (Job.loadEach o pageSize counted).comesTo (perform f p) s = (.error e, s')) :
    (Job.loadEach o pageSize whole).comesTo (perform f p) s = (.error e, s') := by
  obtain ⟨more, rfl⟩ := hpre
  rw [comesTo_loadEach_append, h]

/-- Files are counted and loaded. -/
theorem comesTo_loadFiles (files : List FileStatus) (s : Scene) :
    (Job.loadFiles o pageSize files).comesTo (perform f p) s =
      (((Job.loadEach o pageSize files).comesTo (perform f p) s).1,
        ((Job.loadEach o pageSize files).comesTo (perform f p) s).2.total
          (s.tally.filesTotal + files.length)) := by
  have honly : (Job.loadEach o pageSize files).Only
      (Call.Loads (files.map (fileId ·.backing))) :=
    Job.loadEach_only o pageSize fun file hfile => List.mem_map_of_mem hfile
  rw [Job.loadFiles, comesTo_bind, comesTo_ofCall]
  show (Job.loadEach o pageSize files).comesTo (perform f p) (s.after f p _) = _
  rw [after_count, comesTo_total honly]

/-- It does not matter whether they are loaded as soon as they are listed. -/
theorem loadEach_partialListing (o : LoadOptions) (partialListing : Bool) (pageSize : Int)
    (files : List FileStatus) :
    Job.loadEach { o with partialListing } pageSize files = Job.loadEach o pageSize files := by
  induction files with
  | nil => rfl
  | cons file rest ih =>
    rw [Job.loadEach, Job.loadEach, ih]
    rfl

/-- From the first scene on, these files were counted and loaded, batch by batch. -/
structure Batched (f : LocalFiles) (p : LocalPages) (o : LoadOptions) (s₀ : Scene)
    (counted : List FileStatus) (s : Scene) : Prop where
  comesTo_eq : (Job.loadEach o p.pageSize counted).comesTo (perform f p) s₀ =
    (.ok (), s.total s₀.tally.filesTotal)
  filesTotal_eq : s.tally.filesTotal = s₀.tally.filesTotal + counted.length

/-- With some of the files it broke off, as a page could not be held. -/
structure BrokenOff (f : LocalFiles) (p : LocalPages) (o : LoadOptions) (s₀ : Scene)
    (whole : List FileStatus) (e : Failure) (s : Scene) : Prop where
  isTooLong : Job.IsTooLong p.pageSize e
  comesTo_eq : (Job.loadEach o p.pageSize whole).comesTo (perform f p) s₀ =
    (.error e, s.total s₀.tally.filesTotal)

theorem batched_nil (f : LocalFiles) (p : LocalPages) (o : LoadOptions) (s : Scene) :
    Batched f p o s [] s := ⟨rfl, (Int.add_zero _).symm⟩

/-- One more batch is counted and loaded. -/
theorem Batched.next (h : Batched f p o s₀ counted s) (hpre : counted ++ files <+: whole)
    {r : Except Failure Unit} {s' : Scene}
    (hcomes : (Job.loadFiles o p.pageSize files).comesTo (perform f p) s = (r, s'))
    (hfails : ∀ e, r = .error e → Job.IsTooLong p.pageSize e) :
    (∀ v, r = .ok v → Batched f p o s₀ (counted ++ files) s') ∧
      ∀ e, r = .error e → BrokenOff f p o s₀ whole e s' := by
  have honly : (Job.loadEach o p.pageSize files).Only
      (Call.Loads (files.map (fileId ·.backing))) :=
    Job.loadEach_only o p.pageSize fun file hfile => List.mem_map_of_mem hfile
  rw [comesTo_loadFiles] at hcomes
  obtain ⟨rfl, rfl⟩ := Prod.mk.inj hcomes
  -- From the first scene on it comes to the same, with another number of files counted.
  have hboth : (Job.loadEach o p.pageSize (counted ++ files)).comesTo (perform f p) s₀ =
      (((Job.loadEach o p.pageSize files).comesTo (perform f p) s).1,
        ((Job.loadEach o p.pageSize files).comesTo (perform f p) s).2.total
          s₀.tally.filesTotal) := by
    rw [comesTo_loadEach_append, h.comesTo_eq]
    exact comesTo_total honly s _
  refine ⟨fun v hv => ⟨?_, ?_⟩, fun e he => ⟨hfails e he, ?_⟩⟩
  · rw [hboth, hv, total_total]
  · rw [List.length_append, total, h.filesTotal_eq]
    dsimp only
    omega
  · rw [total_total]
    refine comesTo_loadEach_of_error hpre ?_
    rw [hboth, he]

/-- However a walk goes, it loads the files that are found batch by batch. -/
theorem loading_batches {top : Branch} {store : DiskPlace} {job : Job} (s₀ : Scene)
    (hg : Grounds f p top store s₀.disk) (hcovers : top.Covers job.path)
    (whole : List FileStatus) :
    Loading (f.survey s₀.disk job.path) job p.pageSize whole (Moves f p) (fun _ => True)
      (fun _ => False)
      (fun counted s => Batched f p job.options s₀ counted s ∧ Grounds f p top store s.disk)
      (BrokenOff f p job.options s₀ whole) := by
  refine loading hg hcovers (fun _ _ h => h.2) (fun _ _ _ => trivial) ?_
  rintro counted files s hpre ⟨hbatched, hgrounds⟩
  have hfails := (Job.loadFiles_fails (fun _ h => h) job.options p.pageSize files).keeps
    (fun x s s' (hmove : Moves f p x s s') => sound_of_moves hmove) s
  have hstands := keeps_grounds hgrounds (Job.loadFiles job.options p.pageSize files)
  have hcomes := keeps_comesTo f p (Job.loadFiles job.options p.pageSize files) s
  refine ((hcomes.and hfails).and hstands).imp (fun _ _ => trivial) ?_
  rintro r s' ⟨⟨hcomes, hfails⟩, hstands⟩
  obtain ⟨hok, herror⟩ := hbatched.next hpre hcomes hfails
  exact ⟨fun v hv => ⟨hok v hv, hstands⟩, herror⟩

end Scene

/-! ### Jobs alike but for their batches -/

/-- The job, with its files loaded as soon as they are listed or not. -/
def Job.listing (job : Job) (partialListing : Bool) : Job :=
  { job with options := { job.options with partialListing } }

/-- It selects the same files. -/
theorem Survey.Finds.listing {t : Survey} {job : Job} (h : t.Finds job whole) (b : Bool) :
    t.Finds (job.listing b) whole := by
  cases h with
  | nothing hroot => exact .nothing hroot
  | file hroot hfile => exact .file hroot hfile
  | folder hroot hfolder hall => exact .folder hroot hfolder hall

namespace Scene

variable {job : Job} {b : Bool} {e : Failure} {s' : Scene}

theorem Batched.of_listing (h : Batched f p (job.listing b).options s₀ counted s) :
    Batched f p job.options s₀ counted s where
  comesTo_eq := loadEach_partialListing job.options b p.pageSize counted ▸ h.comesTo_eq
  filesTotal_eq := h.filesTotal_eq

theorem BrokenOff.of_listing (h : BrokenOff f p (job.listing b).options s₀ whole e s) :
    BrokenOff f p job.options s₀ whole e s where
  isTooLong := h.isTooLong
  comesTo_eq := loadEach_partialListing job.options b p.pageSize whole ▸ h.comesTo_eq

/-- There is one scene after the load. -/
theorem Batched.unique (h : Batched f p o s₀ counted s) (h' : Batched f p o s₀ counted s') :
    s = s' := by
  have hsame := (Prod.mk.inj (h.comesTo_eq.symm.trans h'.comesTo_eq)).2
  have htotal := h.filesTotal_eq.trans h'.filesTotal_eq.symm
  have hboth := congrArg (Scene.total · s'.tally.filesTotal) hsame
  simp only [total_total] at hboth
  rw [← s.total_self, htotal, hboth, total_self]

/-- What the load of all the files that are found comes to, and how a run of the job ends then. -/
inductive EndsAs (f : LocalFiles) (p : LocalPages) (job : Job) (d : Disk)
    (whole : List FileStatus) : Option JobState → Scene → Prop
  | nothing (hroot : (f.survey d job.path).root = none) :
      EndsAs f p job d whole (some .failed) { disk := d, tally := job.tally }
  | loaded {s : Scene} (hroot : (f.survey d job.path).root.isSome)
      (h : Batched f p job.options { disk := d, tally := job.tally } whole s) :
      EndsAs f p job d whole (some (Service.endState { job with tally := s.tally })) s
  | brokenOff {s : Scene} {e : Failure} (hroot : (f.survey d job.path).root.isSome)
      (h : BrokenOff f p job.options { disk := d, tally := job.tally } whole e s) :
      EndsAs f p job d whole none s

section Ends

variable {d : Disk} {st st' : Option JobState}

theorem EndsAs.of_listing (h : EndsAs f p (job.listing b) d whole st s) :
    EndsAs f p job d whole st s := by
  cases h with
  | nothing hroot => exact .nothing hroot
  | loaded hroot h => exact .loaded hroot h.of_listing
  | brokenOff hroot h => exact .brokenOff hroot h.of_listing

/-- If pages can be held, there is one way to end, and one scene. -/
theorem EndsAs.alike (h : EndsAs f p job d whole st s) (h' : EndsAs f p job d whole st' s')
    (hcan : Job.CanHold p.pageSize) : ∃ state, st = some state ∧ st' = some state ∧ s' = s := by
  -- What is at the path, and what the load of all the files comes to, tells which case it is.
  cases h with
  | nothing hroot =>
    cases h' with
    | nothing => exact ⟨_, rfl, rfl, rfl⟩
    | loaded hroot' _ | brokenOff hroot' _ => simp [hroot] at hroot'
  | loaded hroot hbatched =>
    cases h' with
    | nothing hroot' => simp [hroot'] at hroot
    | loaded _ hbatched' =>
      obtain rfl := hbatched.unique hbatched'
      exact ⟨_, rfl, rfl, rfl⟩
    | brokenOff _ hbroken' => exact absurd hcan hbroken'.isTooLong.1
  | brokenOff _ hbroken => exact absurd hcan hbroken.isTooLong.1

end Ends

end Scene

/-! ### Runs -/

namespace Chronicle

variable {c : Chronicle Installation} {next : Nat → Event Installation} {job : Job} {top : Branch}
  {store : DiskPlace}

/-- A run has just begun and gets on. It is not told to stop, and nothing but the loads changes
    the disk. -/
structure Undisturbed (f : LocalFiles) (p : LocalPages) (c : Chronicle Installation)
    (next : Nat → Event Installation) (job : Job) : Prop where
  orderly : ∃ limit, (c.service (.ofDisk f p)).Orderly limit c.accepted c.begun c.ended
  begun : c.Begun (.ofDisk f p) job
  getsOn : GetsOn next
  cancelled_eq : job.cancelled = false
  unstopped : Unstopped next job.path
  alone : c.Alone (.ofDisk f p) next

/-- The run comes over in this scene, and then it ends in this state, if it does. -/
structure Comes (f : LocalFiles) (p : LocalPages) (c : Chronicle Installation)
    (next : Nat → Event Installation) (job : Job) (st : Option JobState) (s : Scene) : Prop where
  exists_over : ∃ k r, next k = .work ∧ c.Lasts (.ofDisk f p) next job k ∧
    (c.upTo (.ofDisk f p) next k).Over (.ofDisk f p) job r ∧ c.SceneAt f p next job k s ∧
    (c.upTo (.ofDisk f p) next (k + 1)).ended =
      c.ended ++ (st.map fun st => (job.path, st)).toList

/-- There is one scene in which a run comes over, and one end of it. -/
theorem Comes.unique {st st' : Option JobState} {s' : Scene}
    (h : c.Comes f p next job st s) (h' : c.Comes f p next job st' s') :
    st = st' ∧ s = s' := by
  obtain ⟨k, r, hk, hlasts, hover, hscene, hended⟩ := h.exists_over
  obtain ⟨k', r', hk', hlasts', hover', hscene', hended'⟩ := h'.exists_over
  obtain rfl : k = k' := by
    rcases Nat.lt_trichotomy k k' with hlt | heq | hlt
    · exact absurd hover (hlasts' k hlt hk r)
    · exact heq
    · exact absurd hover' (hlasts k' hlt hk' r')
  constructor
  · have hsame := List.append_cancel_left (hended.symm.trans hended')
    rcases st with _ | st <;> rcases st' with _ | st' <;> cases hsame <;> rfl
  · obtain ⟨disk, tally, writes⟩ := s
    obtain ⟨disk', tally', writes'⟩ := s'
    obtain rfl : disk = disk' := hscene.disk_eq.symm.trans hscene'.disk_eq
    obtain rfl : writes = writes' := hscene.writes_eq.symm.trans hscene'.writes_eq
    have htold := Option.some.inj (hscene.told.symm.trans hscene'.told)
    obtain rfl : tally = tally' := congrArg Job.tally htold
    rfl

/-- As long as the run lasts, it is at work in some scene. -/
theorem Undisturbed.exists_sceneAt (hrun : c.Undisturbed f p next job) {k : Nat}
    (hlasts : c.Lasts (.ofDisk f p) next job k) :
    ∃ program s, (c.upTo (.ofDisk f p) next k).Doing (.ofDisk f p) job program ∧
      c.SceneAt f p next job k s := by
  obtain ⟨limit, ho⟩ := hrun.orderly
  have hfollows := follows_scene ho hrun.cancelled_eq hrun.unstopped hrun.alone
  have hany : ∀ (prog : Program Next) (s : Scene),
      prog.Keeps (Scene.Moves f p) (fun _ => True) s fun _ _ => True := fun prog s =>
    keeps_of_moves (fun _ _ _ _ h => h) trivial prog
  obtain ⟨-, program, s, hdoing, hscene, -⟩ :=
    hfollows.keeps (apart_ofDisk f p) ho (fun _ s _ _ => hany _ s) (hany _ _) trivial
      hrun.begun.doing (hrun.begun.sceneAt next) hlasts
  exact ⟨program, s, hdoing, hscene⟩

/-- A load that begins is undisturbed if all that happens is its work. -/
theorem undisturbed_beginning (d : Disk) (path : Bytes) (o : LoadOptions)
    (hbegun : (beginning f p d path o).Begun (.ofDisk f p) job) (hgoes : job.cancelled = false) :
    (beginning f p d path o).Undisturbed f p (fun _ => .work) job where
  orderly := ⟨128, orderly_beginning f p d path o⟩
  begun := hbegun
  getsOn k := ⟨k, Nat.le_refl k, rfl⟩
  cancelled_eq := hgoes
  unstopped _ _ := nofun
  alone _ _ := nofun

/-- A run comes to what the load of all the files that are found comes to. -/
theorem exists_comes (hrun : c.Undisturbed f p next job) (hg : Grounds f p top store c.state.disk)
    (hcovers : top.Covers job.path) (hfinds : (f.survey c.state.disk job.path).Finds job whole) :
    ∃ st s, c.Comes f p next job st s ∧ Scene.EndsAs f p job c.state.disk whole st s := by
  have hw := apart_ofDisk f p
  obtain ⟨limit, ho⟩ := hrun.orderly
  have hfollows := follows_scene ho hrun.cancelled_eq hrun.unstopped hrun.alone
  obtain ⟨k, r, s, hk, hlasts, hover, hscene, hends, hended⟩ :=
    (Scene.loading_batches { disk := c.state.disk, tally := job.tally } hg hcovers
      whole).exists_over hfinds hfollows hw ho hrun.getsOn hrun.begun (hrun.begun.sceneAt next)
      ⟨Scene.batched_nil f p _ _, hg⟩
  have hcomes : ∀ st, ((c.upTo (.ofDisk f p) next k).after (.ofDisk f p) .work).ended =
      c.ended ++ (Option.map (fun st => (job.path, st)) st).toList → c.Comes f p next job st s := by
    refine fun st hst => ⟨k, r, hk, hlasts, hover, hscene, ?_⟩
    rw [upTo_succ, hk, hst]
  have hnone : (f.survey c.state.disk job.path).root = none → whole = [] := by
    intro hroot
    cases hfinds with
    | nothing => rfl
    | file hsome => cases hroot.symm.trans hsome
    | folder hsome => cases hroot.symm.trans hsome
  rcases r with e | _ | walk
  · rcases hends with hbroken | ⟨hgap, he, counted, hpre, hbatched, -⟩
    · refine ⟨none, s, hcomes _ ?_, .brokenOff ?_ hbroken⟩
      · obtain ⟨-, reason, rfl⟩ := hbroken.isTooLong
        rw [(hover.1.breaksOff hw).2, hended]
        exact (List.append_nil _).symm
      · -- Where there is nothing to load, nothing can break off.
        rw [Option.isSome_iff_ne_none]
        intro hroot
        have hcomes := hbroken.comesTo_eq
        rw [hnone hroot] at hcomes
        cases (Prod.mk.inj hcomes).1
    · have hroot := (hg.stands.gap_survey_iff hcovers).1 hgap
      obtain rfl : s = { disk := c.state.disk, tally := job.tally } := by
        rw [hnone hroot] at hpre
        obtain rfl := List.prefix_nil.1 hpre
        have htotal := hbatched.filesTotal_eq.trans (Int.add_zero _)
        have hsame := (Prod.mk.inj hbatched.comesTo_eq).2
        rw [← htotal, Scene.total_self] at hsame
        exact hsame.symm
      refine ⟨some .failed, _, hcomes _ ?_, .nothing hroot⟩
      rw [(hover.1.fails hw he).2, hended]
      rfl
  · obtain ⟨hsome, counted, -, ⟨hbatched, -⟩, hall⟩ := hends
    obtain rfl := hall.resolve_left id
    refine ⟨some _, s, hcomes _ ?_, .loaded hsome hbatched⟩
    rw [(hover.1.over hw hscene.told rfl).2, hended]
    rfl
  · exact hends.elim

/-- Whether files are loaded as soon as their directory was listed or all together, the same
    pages are written, the same failures are noted, and the runs end alike, if a page can be
    held. -/
theorem alike_in_batches {c : Bool → Chronicle Installation}
    {next : Bool → Nat → Event Installation} {d : Disk}
    (hrun : ∀ b, (c b).Undisturbed f p (next b) (job.listing b))
    (hdisk : ∀ b, (c b).state.disk = d) (hg : Grounds f p top store d)
    (hcovers : top.Covers job.path) (hcan : Job.CanHold p.pageSize) :
    ∃ st s, ∀ b, (c b).Comes f p (next b) (job.listing b) (some st) s := by
  obtain ⟨whole, hfinds⟩ := (hg.stands.finite_survey hcovers).exists_finds job
  -- Either way of listing finds the same files, so its run ends as the load of all of them.
  have hone : ∀ b, ∃ st s, (c b).Comes f p (next b) (job.listing b) st s ∧
      Scene.EndsAs f p job d whole st s := by
    intro b
    obtain rfl := hdisk b
    obtain ⟨st, s, hcomes, hends⟩ := exists_comes (hrun b) hg hcovers (hfinds.listing b)
    exact ⟨st, s, hcomes, hends.of_listing⟩
  obtain ⟨st, s, hcomes, hends⟩ := hone true
  obtain ⟨st', s', hcomes', hends'⟩ := hone false
  obtain ⟨state, rfl, rfl, rfl⟩ := hends.alike hends' hcan
  exact ⟨state, _, fun b => by cases b <;> assumption⟩

/-- A directory of the disk is loaded alike in two batches and in one, when a server serves all
    the disk and keeps its pages on it, as it does without settings. -/
theorem alike_in_batches_default :
    Installation.files {} = DefaultDisk.files.onDisk.within Installation.diskPart ∧
    (Installation.makePages {} { disk := DefaultDisk.disk }).result = .ok DefaultDisk.pages ∧
    ∃ st s, ∀ b : Bool, (beginning DefaultDisk.files DefaultDisk.pages DefaultDisk.disk "/data"
      { partialListing := b }).Comes DefaultDisk.files DefaultDisk.pages (fun _ => .work)
        (Job.listing { path := "/data", options := {} } b) (some st) s := by
  refine ⟨rfl, rfl, ?_⟩
  have hrun : ∀ b, (beginning DefaultDisk.files DefaultDisk.pages DefaultDisk.disk "/data"
      { partialListing := b }).Undisturbed DefaultDisk.files DefaultDisk.pages (fun _ => .work)
        (Job.listing { path := "/data", options := {} } b) := fun b =>
    undisturbed_beginning DefaultDisk.disk "/data" { partialListing := b }
      (by cases b <;> exact ⟨rfl, rfl⟩) rfl
  exact alike_in_batches hrun (fun b => by cases b <;> rfl) DefaultDisk.grounds
    DefaultDisk.covers_directory ⟨by decide, by decide⟩

/-! ### Pages that are too large -/

/-- Pages of this size cannot be held. -/
def hugePages : LocalPages := ⟨"/pages", 2 ^ 62⟩

theorem grounds_huge :
    Grounds SmallDisk.files hugePages SmallDisk.top ["pages"] SmallDisk.disk where
  stands := SmallDisk.stands
  rootedAt := ⟨by decide, rfl, ⟨0, rfl⟩, fun name target h => by cases h⟩
  apart := SmallDisk.grounds.apart

/-- A load of the directory into such pages. -/
def beginningHuge (b : Bool) : Chronicle Installation :=
  beginning SmallDisk.files hugePages SmallDisk.disk "/d" { partialListing := b }

theorem undisturbed_huge (b : Bool) : (beginningHuge b).Undisturbed SmallDisk.files hugePages
    (fun _ => .work) (Job.listing { path := "/d", options := {} } b) :=
  undisturbed_beginning SmallDisk.disk "/d" { partialListing := b }
    (by cases b <;> exact ⟨rfl, rfl⟩) rfl

/-- With the first file the run breaks off, and it has counted one file until then, or both. -/
theorem filesTotal_huge (b : Bool) {st : Option JobState} {s : Scene}
    (h : (beginningHuge b).Comes SmallDisk.files hugePages (fun _ => .work)
      (Job.listing { path := "/d", options := {} } b) st s) :
    s.tally.filesTotal = bif b then 1 else 2 := by
  obtain ⟨k, r, -, hlasts, hover, hscene, -⟩ := h.exists_over
  have hinRun : ∀ i < (bif b then 7 else 11), (((beginningHuge b).upTo
      (.ofDisk SmallDisk.files hugePages) (fun _ => .work) i).service
        (.ofDisk SmallDisk.files hugePages)).isInRun := by cases b <;> decide +kernel
  have hends : (((beginningHuge b).upTo (.ofDisk SmallDisk.files hugePages) (fun _ => .work)
      (bif b then 7 else 11)).service (.ofDisk SmallDisk.files hugePages)).isInRun = false := by
    cases b <;> decide +kernel
  obtain rfl : k = bif b then 7 else 11 := by
    rcases Nat.lt_trichotomy k (bif b then 7 else 11) with hlt | heq | hlt
    · exact absurd (hinRun k hlt) (Bool.eq_false_iff.1 hover.isInRun_eq)
    · exact heq
    · obtain ⟨program, s', hdoing, -⟩ := (undisturbed_huge b).exists_sceneAt (hlasts.mono hlt.le)
      obtain ⟨r', hover'⟩ := hdoing.exists_over hends
      exact absurd hover' (hlasts _ hlt rfl r')
  have htotal : ((((beginningHuge b).upTo (.ofDisk SmallDisk.files hugePages) (fun _ => .work)
      (bif b then 7 else 11)).service (.ofDisk SmallDisk.files hugePages)).jobs.get?
        (Job.listing { path := "/d", options := {} } b).path).map (·.tally.filesTotal) =
          some (bif b then 1 else 2) := by cases b <;> decide +kernel
  have htold := congrArg (Option.map (·.tally.filesTotal)) hscene.told
  exact Option.some.inj (htold.symm.trans htotal)

/-- Where a page cannot be held, files are not loaded alike in two batches and in one. -/
theorem not_always_alike :
    ¬ ∀ (f : LocalFiles) (p : LocalPages) (top : Branch) (store : DiskPlace) (d : Disk) (job : Job)
      (c : Bool → Chronicle Installation) (next : Bool → Nat → Event Installation),
      0 < p.pageSize → (∀ b, (c b).Undisturbed f p (next b) (job.listing b)) →
      (∀ b, (c b).state.disk = d) → Grounds f p top store d → top.Covers job.path →
        ∃ st s, ∀ b, (c b).Comes f p (next b) (job.listing b) st s := by
  intro hall
  obtain ⟨st, s, hcomes⟩ := hall SmallDisk.files hugePages SmallDisk.top ["pages"] SmallDisk.disk
    { path := "/d", options := {} } beginningHuge (fun _ _ => .work) (by decide) undisturbed_huge
    (fun b => by cases b <;> rfl) grounds_huge SmallDisk.covers_directory
  cases (filesTotal_huge true (hcomes true)).symm.trans (filesTotal_huge false (hcomes false))

end Chronicle

end PageServer.Load
