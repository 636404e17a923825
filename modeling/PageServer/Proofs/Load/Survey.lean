import PageServer.Proofs.Load.Rounds

/-!
# Surveys

A *survey* is what a load is shown of a path and of the directories below it. With it stand the
files that a job selects: the one at the path itself, or those below it that the filter lets
through (`Survey.Selected`). In a finite survey they are found one after the other, each once
(`Survey.Finds`).

A walk counts and loads them in this order, batch by batch, or all of them after the last
round. What holds of files that are counted and loaded (`Loading`) holds therefore of all that
are selected when the walk is over, unless it was told to stop or broke off
(`Loading.exists_over`).
-/

namespace PageServer.Load

open Program

/-- What is shown of a path, and listed in the directories below it, if anything is. -/
structure Survey where
  root : Option FileStatus
  listing : Bytes → Option (List FileStatus)

namespace Survey

/-- The entries of a directory, as far as it can be listed. -/
def entriesOf (t : Survey) (dir : Bytes) : List FileStatus := (t.listing dir).getD []

/-- The paths of the directories in a directory. -/
def folders (t : Survey) (dir : Bytes) : List Bytes := foldersOf (t.entriesOf dir)

/-- The directory is at the path, or below it. -/
def Folder (t : Survey) (dir : Bytes) : Prop :=
  ∃ root, t.root = some root ∧ root.isFolder ∧ Reaches t.folders root.path dir

/-- Something is not shown: the path, or what is in a directory. -/
def Gap (t : Survey) : Prop := t.root = none ∨ ∃ dir, t.Folder dir ∧ t.listing dir = none

/-- What is at the path, and all that is listed below it. -/
inductive Below (t : Survey) : FileStatus → Prop
  | root {e : FileStatus} (h : t.root = some e) : Below t e
  | entry {dir : Bytes} {e : FileStatus} (hdir : t.Folder dir) (he : e ∈ t.entriesOf dir) :
      Below t e

/-- The files that a job loads: a file at the path itself, and those below it that the filter
    lets through. -/
def Selected (t : Survey) (job : Job) (e : FileStatus) : Prop :=
  t.Below e ∧ e.isFolder = false ∧ (t.root = some e ∨ job.selects e)

/-- The files that a job loads of those in a directory. -/
def selectedIn (t : Survey) (job : Job) (dir : Bytes) : List FileStatus :=
  (t.entriesOf dir).filter fun e => !e.isFolder && job.selects e

/-- All entries have names of their own in their directories. -/
def Named (t : Survey) : Prop :=
  ∀ dir, t.Folder dir → Load.Named dir ((t.entriesOf dir).map (·.path))

/-- There are finitely many directories. -/
def Finite (t : Survey) : Prop :=
  ∀ root, t.root = some root → root.isFolder → ∃ all, Visits t.folders [root.path] all

/-- The files that a job selects, in the order in which they are found. -/
inductive Finds (t : Survey) (job : Job) : List FileStatus → Prop
  | nothing (h : t.root = none) : Finds t job []
  | file {root : FileStatus} (h : t.root = some root) (hfile : root.isFolder = false) :
      Finds t job [root]
  | folder {root : FileStatus} {all : List Bytes} (h : t.root = some root) (hfolder : root.isFolder)
      (hall : Visits t.folders [root.path] all) : Finds t job (all.flatMap (t.selectedIn job))

/-- The replies show the survey. A file that was opened can be read up to the end that it is
    shown with. -/
structure Shown (t : Survey) (path : Bytes) (opened : Bytes → OpenFile → Prop) (x : Exchange) :
    Prop where
  sound : x.Sound
  status : ∀ r, x = ⟨.status path, r⟩ → r.toOption = t.root
  list : ∀ dir r, x = ⟨.list dir, r⟩ → t.Folder dir → r.toOption = t.listing dir
  opens : ∀ p source, x = ⟨.openFile p, .ok source⟩ → opened p source
  reads : ∀ e source position length, x = ⟨.read source position length, .ok none⟩ → t.Below e →
    opened e.path source → 0 ≤ position → 0 < length → e.length ≤ position

variable {t : Survey} {job : Job} {dir : Bytes} {e root : FileStatus} {all : List Bytes}
  {whole : List FileStatus}

theorem mem_selectedIn :
    e ∈ t.selectedIn job dir ↔ e ∈ t.entriesOf dir ∧ e.isFolder = false ∧ job.selects e := by
  rw [selectedIn, List.mem_filter, Bool.and_eq_true, Bool.not_eq_true']

theorem selected_of_mem (hdir : t.Folder dir) (he : e ∈ t.selectedIn job dir) :
    t.Selected job e := by
  obtain ⟨hmem, hfile, hselects⟩ := mem_selectedIn.1 he
  exact ⟨.entry hdir hmem, hfile, .inr hselects⟩

/-- Below a directory there are only the files in the directories that are reached. -/
theorem Selected.exists_folder (h : t.Selected job e) (hroot : t.root = some root)
    (hfolder : root.isFolder) : ∃ dir, t.Folder dir ∧ e ∈ t.selectedIn job dir := by
  obtain ⟨hbelow, hfile, hselects⟩ := h
  have hne : t.root ≠ some e := by
    rw [hroot]
    rintro heq
    cases heq
    rw [hfolder] at hfile
    cases hfile
  cases hbelow with
  | root h => exact absurd h hne
  | entry hdir he =>
    exact ⟨_, hdir, mem_selectedIn.2 ⟨he, hfile, hselects.resolve_left hne⟩⟩

/-- A path that leads to a file leads to nothing else. -/
theorem Selected.eq_root (h : t.Selected job e) (hroot : t.root = some root)
    (hfile : root.isFolder = false) : e = root := by
  cases h.1 with
  | root h => exact Option.some.inj (h.symm.trans hroot)
  | entry hdir he =>
    obtain ⟨root', hroot', hfolder, -⟩ := hdir
    obtain rfl := Option.some.inj (hroot'.symm.trans hroot)
    rw [hfile] at hfolder
    cases hfolder

/-- The same files are selected where the same is shown, by jobs with the same filter. -/
theorem Selected.congr {t' : Survey} {job' : Job} (h : t.Selected job e) (hroot : t'.root = t.root)
    (hlisting : ∀ dir, t.Folder dir → t'.listing dir = t.listing dir)
    (hfilter : job'.filter = job.filter) : t'.Selected job' e := by
  obtain ⟨hbelow, hfile, hselects⟩ := h
  have hentries : ∀ dir, t.Folder dir → t'.entriesOf dir = t.entriesOf dir := fun dir hdir => by
    rw [entriesOf, entriesOf, hlisting dir hdir]
  have hfolder : ∀ dir, t.Folder dir → t'.Folder dir := by
    rintro dir ⟨root, hsome, hisFolder, hreaches⟩
    refine ⟨root, hroot.trans hsome, hisFolder, ?_⟩
    induction hreaches with
    | top => exact .top
    | child hreached hmem ih =>
      refine .child ih ?_
      rwa [Survey.folders, hentries _ ⟨root, hsome, hisFolder, hreached⟩]
  refine ⟨?_, hfile, hselects.imp hroot.trans fun hselects => ?_⟩
  · cases hbelow with
    | root hsome => exact .root (hroot.trans hsome)
    | entry hdir he => exact .entry (hfolder _ hdir) (hentries _ hdir ▸ he)
  · rwa [Job.selects, hfilter]

theorem Named.folders (h : t.Named) (hroot : t.root = some root) (hfolder : root.isFolder) :
    ∀ p, Reaches t.folders root.path p → Load.Named p (t.folders p) := fun p hp =>
  (h p ⟨root, hroot, hfolder, hp⟩).sublist (List.filter_sublist.map _)

/-- The directories that are visited are those that are reached, each once. -/
theorem Named.visits (h : t.Named) (hroot : t.root = some root) (hfolder : root.isFolder)
    (hall : Visits t.folders [root.path] all) : all.Nodup ∧ ∀ dir, dir ∈ all ↔ t.Folder dir := by
  obtain ⟨hnodup, hreaches, hevery⟩ := (Tidy.start t.folders root.path).visits
    (branching_of_named (h.folders hroot hfolder)) hall
  refine ⟨hnodup, fun dir => ⟨fun hdir => ⟨root, hroot, hfolder, hreaches dir hdir⟩, ?_⟩⟩
  rintro ⟨root', hroot', -, hdir⟩
  obtain rfl := Option.some.inj (hroot.symm.trans hroot')
  exact hevery dir hdir

/-- The files that are found are those that are selected. -/
theorem Finds.mem_iff (h : t.Finds job whole) (hnamed : t.Named) :
    e ∈ whole ↔ t.Selected job e := by
  cases h with
  | nothing hroot =>
    refine ⟨nofun, fun hselected => ?_⟩
    cases hselected.1 with
    | root h => cases hroot.symm.trans h
    | entry hdir _ =>
      obtain ⟨root, hsome, -⟩ := hdir
      cases hroot.symm.trans hsome
  | file hroot hfile =>
    refine ⟨fun he => ?_, fun hselected => List.mem_singleton.2 (hselected.eq_root hroot hfile)⟩
    obtain rfl := List.mem_singleton.1 he
    exact ⟨.root hroot, hfile, .inl hroot⟩
  | folder hroot hfolder hall =>
    -- The walk lists just the directories that can be reached.
    have hvisits := (hnamed.visits hroot hfolder hall).2
    constructor
    · intro he
      obtain ⟨dir, hdir, he⟩ := List.mem_flatMap.1 he
      exact selected_of_mem ((hvisits dir).1 hdir) he
    · intro hselected
      obtain ⟨dir, hdir, he⟩ := hselected.exists_folder hroot hfolder
      exact List.mem_flatMap.2 ⟨dir, (hvisits dir).2 hdir, he⟩

/-- The files that are found have paths of their own. -/
theorem Finds.nodup (h : t.Finds job whole) (hnamed : t.Named) : (whole.map (·.path)).Nodup := by
  cases h with
  | nothing => exact List.nodup_nil
  | file => exact List.nodup_singleton _
  | folder hroot hfolder hall =>
    obtain ⟨hnodup, hvisits⟩ := hnamed.visits hroot hfolder hall
    have hselected : ∀ dir, t.Folder dir →
        Load.Named dir ((t.selectedIn job dir).map (·.path)) := fun dir hdir =>
      (hnamed dir hdir).sublist (List.filter_sublist.map _)
    have hreaches : ∀ dir, t.Folder dir → Reaches t.folders _ dir := fun dir hdir => by
      obtain ⟨root', hroot', -, hdir⟩ := hdir
      obtain rfl := Option.some.inj (hroot.symm.trans hroot')
      exact hdir
    rw [List.map_flatMap, List.nodup_flatMap]
    refine ⟨fun dir hdir => (hselected dir ((hvisits dir).1 hdir)).nodup, ?_⟩
    refine hnodup.imp_of_mem fun {dir dir'} hdir hdir' hne q hq hq' => hne ?_
    have hdir := (hvisits dir).1 hdir
    have hdir' := (hvisits dir').1 hdir'
    exact (hreaches dir hdir).eq_of_child (hnamed.folders hroot hfolder) (hreaches dir' hdir')
      (hselected dir hdir) (hselected dir' hdir') hq hq'

/-- In a finite survey the files are found. -/
theorem Finite.exists_finds (h : t.Finite) (job : Job) : ∃ whole, t.Finds job whole := by
  rcases hroot : t.root with _ | root
  · exact ⟨[], .nothing hroot⟩
  · cases hfolder : root.isFolder with
    | false => exact ⟨[root], .file hroot hfolder⟩
    | true =>
      obtain ⟨all, hall⟩ := h root hroot hfolder
      exact ⟨_, .folder hroot hfolder hall⟩

end Survey

/-! ### Loading what is found -/

/-- The calls that look for files, or ask whether to stop. -/
def Call.isLook : Call → Bool
  | .status _ | .list _ | .isStopped => true
  | _ => false

variable {ρ : Type}

/-- What holds of files that are counted and loaded. It is kept while a walk looks for others,
    and with the next ones it holds of these as well. -/
structure Loading (t : Survey) (job : Job) (pageSize : Int) (whole : List FileStatus)
    (moves : Exchange → ρ → ρ → Prop) (J Halts : ρ → Prop) (Inv : List FileStatus → ρ → Prop)
    (Fails : Failure → ρ → Prop) : Prop where
  status : ∀ counted r s s', Inv counted s → moves ⟨.status job.path, r⟩ s s' →
    r.toOption = t.root ∧ ∀ e, r = .error e → e.isFileSystem
  list : ∀ counted dir r s s', Inv counted s → t.Folder dir → moves ⟨.list dir, r⟩ s s' →
    r.toOption = t.listing dir ∧ ∀ e, r = .error e → e.isFileSystem
  isStopped : ∀ counted r s s', Inv counted s → moves ⟨.isStopped, r⟩ s s' →
    r = .ok false ∨ r = .ok true ∧ Halts s'
  look : ∀ counted x s s', counted <+: whole → Inv counted s → x.call.isLook → moves x s s' →
    J s' ∧ Inv counted s'
  halts : ∀ x s s', moves x s s' → Halts s → Halts s'
  load : ∀ counted files s, counted ++ files <+: whole → Inv counted s →
    (Job.loadFiles job.options pageSize files).Keeps moves J s fun r s' =>
      (∀ v, r = .ok v → Inv (counted ++ files) s') ∧ ∀ e, r = .error e → Fails e s'

namespace Loading

variable {t : Survey} {job : Job} {pageSize : Int} {whole : List FileStatus}
  {moves : Exchange → ρ → ρ → Prop} {J Halts : ρ → Prop} {Inv : List FileStatus → ρ → Prop}
  {Fails : Failure → ρ → Prop} {walk : Walk} {s : ρ} {listed more : List Bytes}

/-- These directories were listed and their files counted, and those are still to be listed. -/
structure Walking (t : Survey) (job : Job) (whole : List FileStatus)
    (Inv : List FileStatus → ρ → Prop) (listed more : List Bytes) (walk : Walk) (s : ρ) : Prop where
  isSome : t.root.isSome
  visits : Visits t.folders walk.pending more
  folder : ∀ dir ∈ walk.pending, t.Folder dir
  whole_eq : (listed ++ more).flatMap (t.selectedIn job) = whole
  collected : job.options.partialListing = false →
    walk.collected = listed.flatMap (t.selectedIn job) ∧ Inv [] s
  counted : job.options.partialListing → Inv (listed.flatMap (t.selectedIn job)) s

/-- So many directories are still to be listed. -/
def Unwalked (t : Survey) (job : Job) (whole : List FileStatus)
    (Inv : List FileStatus → ρ → Prop) (n : Nat) (walk : Walk) (s : ρ) : Prop :=
  ∃ listed more, more.length = n ∧ Walking t job whole Inv listed more walk s

/-- How a walk ends: it holds of all that is found, unless the walk was told to stop or broke
    off. -/
def Ends (t : Survey) (whole : List FileStatus) (Halts : ρ → Prop)
    (Inv : List FileStatus → ρ → Prop) (Fails : Failure → ρ → Prop) :
    Except Failure Next → ρ → Prop
  | .ok .over, s => t.root.isSome ∧
      ∃ counted, counted <+: whole ∧ Inv counted s ∧ (Halts s ∨ counted = whole)
  | .ok (.walk _), _ => False
  | .error e, s => Fails e s ∨ t.Gap ∧ e.isFileSystem ∧ ∃ counted, counted <+: whole ∧ Inv counted s

theorem Walking.isPrefix (h : Walking t job whole Inv listed more walk s) :
    listed.flatMap (t.selectedIn job) <+: whole := by
  rw [← h.whole_eq, List.flatMap_append]
  exact List.prefix_append _ _

/-- Of some of the files it holds all the time. -/
theorem Walking.exists_counted (h : Walking t job whole Inv listed more walk s) :
    ∃ counted, counted <+: whole ∧ Inv counted s := by
  cases hpartial : job.options.partialListing with
  | false => exact ⟨[], List.nil_prefix, (h.collected hpartial).2⟩
  | true => exact ⟨_, h.isPrefix, h.counted hpartial⟩

/-- What is looked for leaves the walk where it is. -/
theorem walking_look (hl : Loading t job pageSize whole moves J Halts Inv Fails)
    (h : Walking t job whole Inv listed more walk s) {x : Exchange} (hx : x.call.isLook) {s' : ρ}
    (hmove : moves x s s') : J s' ∧ Walking t job whole Inv listed more walk s' := by
  obtain ⟨counted, hpre, hinv⟩ := h.exists_counted
  have hJ := (hl.look counted x s s' hpre hinv hx hmove).1
  refine ⟨hJ, h.isSome, h.visits, h.folder, h.whole_eq, ?_, ?_⟩
  · exact fun hpartial => ⟨(h.collected hpartial).1,
      (hl.look [] x s s' List.nil_prefix (h.collected hpartial).2 hx hmove).2⟩
  · exact fun hpartial => (hl.look _ x s s' h.isPrefix (h.counted hpartial) hx hmove).2

/-- The first of the pending directories is listed, and its files are counted with those before
    them. -/
theorem Walking.next {dir : Bytes} {rest : List Bytes}
    (h : Walking t job whole Inv listed more walk s) (hpending : walk.pending = dir :: rest) :
    listed.flatMap (t.selectedIn job) ++ t.selectedIn job dir <+: whole ∧
      ∃ n < more.length, ∀ collected s',
        (job.options.partialListing = false →
          collected = walk.collected ++ t.selectedIn job dir ∧ Inv [] s') →
        (job.options.partialListing →
          Inv (listed.flatMap (t.selectedIn job) ++ t.selectedIn job dir) s') →
        Unwalked t job whole Inv n { pending := rest ++ t.folders dir, collected } s' := by
  have hvisits := h.visits
  rw [hpending] at hvisits
  cases hvisits with
  | @cons _ _ more hvisits =>
  obtain ⟨hdir, hrest⟩ := List.forall_mem_cons.1 (hpending ▸ h.folder)
  -- What is pending afterwards are directories, too.
  have hfolder : ∀ p ∈ rest ++ t.folders dir, t.Folder p := by
    refine List.forall_mem_append.2 ⟨hrest, fun p hp => ?_⟩
    obtain ⟨root, hroot, hisFolder, hreaches⟩ := hdir
    exact ⟨root, hroot, hisFolder, hreaches.child hp⟩
  have hwhole : (listed ++ [dir] ++ more).flatMap (t.selectedIn job) = whole := by
    rw [List.append_assoc]
    exact h.whole_eq
  have hmore : (listed ++ [dir]).flatMap (t.selectedIn job) =
      listed.flatMap (t.selectedIn job) ++ t.selectedIn job dir := by
    rw [List.flatMap_append, List.flatMap_singleton]
  refine ⟨?_, more.length, Nat.lt_succ_self _, fun collected s' hcollected hcounted => ?_⟩
  · rw [← hmore, ← hwhole]
    exact ⟨more.flatMap (t.selectedIn job), List.flatMap_append.symm⟩
  · refine ⟨listed ++ [dir], more, rfl, h.isSome, hvisits, hfolder, hwhole, fun hpartial => ?_,
      fun hpartial => hmore ▸ hcounted hpartial⟩
    rw [hmore, ← (h.collected hpartial).1]
    exact hcollected hpartial

/-- With the end of a walk what was collected is loaded. -/
theorem finishWalk (hl : Loading t job pageSize whole moves J Halts Inv Fails)
    (h : Walking t job whole Inv listed more walk s) (hlast : Halts s ∨ more = [])
    (InvWalk : Nat → Walk → ρ → Prop) (bound : Nat) :
    (job.finishWalk pageSize walk).Keeps moves J s
      (Chronicle.Follows.AfterRound InvWalk (Ends t whole Halts Inv Fails) bound) := by
  have hall : more = [] → listed.flatMap (t.selectedIn job) = whole := by
    rintro rfl
    rw [← h.whole_eq, List.append_nil]
  rw [Job.finishWalk]
  cases hpartial : job.options.partialListing with
  | false =>
    obtain ⟨hcollected, hinv⟩ := h.collected hpartial
    rw [Bool.not_false, if_pos rfl, hcollected]
    have hload := hl.load [] (listed.flatMap (t.selectedIn job)) s h.isPrefix hinv
    -- Loading what was collected takes no stop back.
    have hhalts := keeps_of_moves (K := fun s' => Halts s → Halts s')
      (fun x s₁ s₂ hmove h hs => hl.halts x s₁ s₂ hmove (h hs)) (fun hs => hs)
      (Job.loadFiles job.options pageSize (listed.flatMap (t.selectedIn job)))
    refine keeps_bind ((hload.and hhalts).imp (fun _ hJ => hJ.1) fun r s' hQ => ?_)
    obtain ⟨⟨hok, herror⟩, hhalts'⟩ := hQ
    cases r with
    | error e => exact .inl (herror e rfl)
    | ok v => exact ⟨h.isSome, _, h.isPrefix, hok v rfl, (hlast.imp_left hhalts').imp_right hall⟩
  | true =>
    exact keeps_pure ⟨h.isSome, _, h.isPrefix, h.counted hpartial, hlast.imp_right hall⟩

/-- After a round there is a directory less to be listed, or the walk is over. -/
theorem round (hl : Loading t job pageSize whole moves J Halts Inv Fails) {n : Nat}
    (h : Unwalked t job whole Inv n walk s) :
    (job.round pageSize walk).Keeps moves J s
      (Chronicle.Follows.AfterRound (Unwalked t job whole Inv) (Ends t whole Halts Inv Fails)
        n) := by
  obtain ⟨listed, more, rfl, h⟩ := h
  rw [Job.round]
  rcases hpending : walk.pending with _ | ⟨dir, rest⟩
  · have hvisits := h.visits
    rw [hpending] at hvisits
    cases hvisits
    exact hl.finishWalk h (.inr rfl) _ _
  dsimp only
  refine keeps_bind (keeps_call fun stopped s' hmove => ?_)
  obtain ⟨counted, -, hinv⟩ := h.exists_counted
  obtain ⟨hJ, h'⟩ := hl.walking_look h rfl hmove
  refine ⟨hJ, ?_⟩
  -- A job that is told to stop lists no more, and ends with what it has.
  rcases hl.isStopped counted stopped s s' hinv hmove with rfl | ⟨rfl, hhalts⟩
  swap
  · exact hl.finishWalk h' (.inl hhalts) _ _
  clear h hinv hmove hJ
  simp only [Then]
  rw [if_neg Bool.false_ne_true]
  refine keeps_bind (keeps_call fun listing s'' hmove => ?_)
  obtain ⟨counted, hcounted, hinv⟩ := h'.exists_counted
  obtain ⟨hJ, h⟩ := hl.walking_look h' rfl hmove
  obtain ⟨hdir, hrest⟩ := List.forall_mem_cons.1 (hpending ▸ h.folder)
  obtain ⟨hshown, hfails⟩ := hl.list counted dir listing s' s'' hinv hdir hmove
  refine ⟨hJ, ?_⟩
  rcases listing with e | entries
  · exact .inr ⟨.inr ⟨dir, hdir, hshown.symm⟩, hfails e rfl, h.exists_counted⟩
  -- The listing that was given is the one that the survey tells of.
  have hentries : t.entriesOf dir = entries := by rw [Survey.entriesOf, ← hshown]; rfl
  subst hentries
  obtain ⟨hpre, n, hlt, hnext⟩ := h.next hpending
  simp only [Then]
  cases hpartial : job.options.partialListing with
  | true =>
    rw [if_pos rfl]
    have hnot : job.options.partialListing ≠ false := by simp [hpartial]
    refine keeps_bind ((hl.load _ _ s'' hpre (h.counted hpartial)).mono fun r s₃ hQ => ?_)
    obtain ⟨hok, herror⟩ := hQ
    cases r with
    | error e => exact .inl (herror e rfl)
    | ok v => exact ⟨n, hlt, hnext _ s₃ (fun hp => absurd hp hnot) fun _ => hok v rfl⟩
  | false =>
    rw [if_neg Bool.false_ne_true]
    have hnot : job.options.partialListing ≠ true := by simp [hpartial]
    exact keeps_pure ⟨n, hlt, hnext _ s'' (fun _ => ⟨rfl, (h.collected hpartial).2⟩)
      fun hp => absurd hp hnot⟩

/-- A job starts with a file that is loaded, or with all directories still to be listed. -/
theorem begin (hl : Loading t job pageSize whole moves J Halts Inv Fails)
    (hfinds : t.Finds job whole) (h : Inv [] s) :
    ∃ bound, (job.begin pageSize).Keeps moves J s
      (Chronicle.Follows.AfterRound (Unwalked t job whole Inv) (Ends t whole Halts Inv Fails)
        bound) := by
  -- In each case the status is asked for first, and it is what the survey tells of the root.
  have hstatus : ∀ {Q : Except Failure FileStatus → ρ → Prop},
      (∀ r s', r.toOption = t.root → (∀ e, r = .error e → e.isFileSystem) → Inv [] s' → Q r s') →
        (ofCall (.status job.path)).Keeps moves J s Q := by
    refine fun hQ => keeps_call fun r s' hmove => ?_
    obtain ⟨hJ, hinv⟩ := hl.look [] _ s s' List.nil_prefix h rfl hmove
    obtain ⟨hshown, hfails⟩ := hl.status [] r s s' h hmove
    exact ⟨hJ, hQ r s' hshown hfails hinv⟩
  cases hfinds with
  | nothing hroot =>
    refine ⟨0, keeps_bind (hstatus fun r s' hr hfails hinv => ?_)⟩
    rw [hroot] at hr
    rcases r with e | root
    · exact .inr ⟨.inl hroot, hfails e rfl, [], List.nil_prefix, hinv⟩
    · cases hr
  | @file root hroot hfile =>
    refine ⟨0, keeps_bind (hstatus fun r s' hr hfails hinv => ?_)⟩
    rw [hroot] at hr
    rcases r with e | root'
    · cases hr
    obtain rfl := Option.some.inj hr
    simp only [Then]
    rw [hfile, if_neg Bool.false_ne_true]
    refine keeps_bind ((hl.load [] [root'] s' (List.prefix_refl _) hinv).mono fun r s'' hQ => ?_)
    obtain ⟨hok, herror⟩ := hQ
    cases r with
    | error e => exact .inl (herror e rfl)
    | ok v => exact ⟨Option.isSome_of_mem hroot, _, List.prefix_refl _, hok v rfl, .inr rfl⟩
  | @folder root all hroot hfolder hall =>
    refine ⟨all.length + 1, keeps_bind (hstatus fun r s' hr hfails hinv => ?_)⟩
    rw [hroot] at hr
    rcases r with e | root'
    · cases hr
    obtain rfl := Option.some.inj hr
    simp only [Then]
    rw [if_pos hfolder]
    refine keeps_pure ⟨all.length, Nat.lt_succ_self _, [], all, rfl, Option.isSome_of_mem hroot,
      hall, ?_, rfl, fun _ => ⟨rfl, hinv⟩, fun _ => hinv⟩
    exact List.forall_mem_singleton.2 ⟨root', hroot, hfolder, .top⟩

/-! ### Runs that load what is found -/

variable {σ : Type} {w : Workplace σ} {c : Chronicle σ} {next : Nat → Event σ} {limit : Nat}
  {view : Nat → ρ → Prop}

/-- A run is over when it has loaded what is found, or broken off. -/
theorem exists_over (hl : Loading t job w.pages.pageSize whole moves J Halts Inv Fails)
    (hfinds : t.Finds job whole) (hf : c.Follows w next job moves view) (hw : w.Apart)
    (ho : (c.service w).Orderly limit c.accepted c.begun c.ended) (hworks : Chronicle.GetsOn next)
    (hbegun : c.Begun w job) (hview : view 0 s) (h : Inv [] s) :
    ∃ k r s', next k = .work ∧ c.Lasts w next job k ∧ (c.upTo w next k).Over w job r ∧
      view k s' ∧ Ends t whole Halts Inv Fails r s' ∧ (c.upTo w next k).ended = c.ended := by
  obtain ⟨bound, hbegin⟩ := hl.begin hfinds h
  obtain ⟨k, r, s', -, hk, hlasts, hover, hview', hends, hended⟩ :=
    hf.exists_over (k := 0) hw ho hworks (fun n walk s hn => hl.round hn) hbegin hbegun.doing
      Chronicle.lasts_zero hview
  exact ⟨k, r, s', hk, hlasts, hover, hview', hends, hended⟩

/-- All the time until then it holds what is kept. -/
theorem keeps (hl : Loading t job w.pages.pageSize whole moves J Halts Inv Fails)
    (hfinds : t.Finds job whole) (hf : c.Follows w next job moves view) (hw : w.Apart)
    (ho : (c.service w).Orderly limit c.accepted c.begun c.ended) (hbegun : c.Begun w job)
    (hview : view 0 s) (h : Inv [] s) (hJ : J s) {k : Nat} (hlasts : c.Lasts w next job k) :
    ∃ s', view k s' ∧ J s' := by
  obtain ⟨bound, hbegin⟩ := hl.begin hfinds h
  -- How much is left to be listed makes no difference here.
  have hbegin' := hbegin.mono (R := fun r s' => ∃ bound, Chronicle.Follows.AfterRound
    (Unwalked t job whole Inv) (Ends t whole Halts Inv Fails) bound r s') fun _ _ h => ⟨bound, h⟩
  obtain ⟨-, program, s', -, hview', -, hJ'⟩ :=
    hf.keeps hw ho (fun walk s ⟨_, n, _, hn⟩ _ => (hl.round hn).mono fun _ _ h => ⟨n, h⟩)
      hbegin' hJ hbegun.doing hview hlasts
  exact ⟨s', hview', hJ'⟩

end Loading

end PageServer.Load
