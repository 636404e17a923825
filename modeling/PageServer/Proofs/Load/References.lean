import PageServer.Proofs.Files.Canonical
import PageServer.Proofs.Load.Static

/-!
# What the calls of a run refer to

A run learns of files from the replies to its calls (`toldIn`), and from then on it names them
in two ways: it comes back with the path of an entry, and it puts pages under an id that is made
of the backing path. Whatever it is replied, each of its calls refers to an entry that it was
told of before (`Chronicle.refersBack_talk`).

In loads from local files, such an entry is kept where its path leads
(`LocalFiles.Coherent`). So both ways lead to one and the same file
(`Chronicle.KeepsToFiles`): what a run opens under the path of an entry is what is then at its
backing path, and only bytes read from there go to the pages of this backing path.
-/

namespace PageServer.Load

/-- The entries that a reply tells of. -/
def Exchange.entries : Exchange → List FileStatus
  | ⟨.status _, .ok e⟩ => [e]
  | ⟨.list _, .ok entries⟩ => entries
  | _ => []

/-- The entries that a run was told of. -/
def toldIn (talk : List Exchange) : List FileStatus := talk.flatMap Exchange.entries

/-- The file was opened under the path of an entry that the run was told of. -/
structure SourceOf (talk : List Exchange) (e : FileStatus) (source : OpenFile) : Prop where
  told : e ∈ toldIn talk
  opened : ⟨.openFile e.path, .ok source⟩ ∈ talk

/-- The call refers to the path of the job, or to an entry that the run was told of. -/
inductive RefersTo (job : Job) (talk : List Exchange) : Call → Prop
  | job : RefersTo job talk (.status job.path)
  | status {e : FileStatus} (h : e ∈ toldIn talk) : RefersTo job talk (.status e.path)
  | list {e : FileStatus} (h : e ∈ toldIn talk) : RefersTo job talk (.list e.path)
  | openFile {e : FileStatus} (h : e ∈ toldIn talk) : RefersTo job talk (.openFile e.path)
  | read {e : FileStatus} {source : OpenFile} {position length : Int}
      (h : SourceOf talk e source) : RefersTo job talk (.read source position length)
  | isCached {e : FileStatus} {index : Int} (h : e ∈ toldIn talk) :
      RefersTo job talk (.isCached (fileId e.backing) index)
  /-- What is written into a page was read from the file that the page is of. -/
  | writePage {e : FileStatus} {source : OpenFile} {position length index : Int} {data : Bytes}
      (h : SourceOf talk e source)
      (hread : ⟨.read source position length, .ok (some data)⟩ ∈ talk) :
      RefersTo job talk (.writePage (fileId e.backing) index data)
  | own {call : Call} (h : call.isOwn) : RefersTo job talk call

/-- Each call of the talk refers to what the run was told before. -/
inductive RefersBack (job : Job) : List Exchange → Prop
  | nil : RefersBack job []
  | snoc {talk : List Exchange} {x : Exchange} (h : RefersBack job talk)
      (hx : RefersTo job talk x.call) : RefersBack job (talk ++ [x])

variable {talk talk' : List Exchange} {e : FileStatus} {source : OpenFile}

theorem toldIn_subset (h : talk <+: talk') : toldIn talk ⊆ toldIn talk' := by
  obtain ⟨more, rfl⟩ := h
  rw [toldIn, toldIn, List.flatMap_append]
  exact List.subset_append_left _ _

theorem SourceOf.mono (h : SourceOf talk e source) (hpre : talk <+: talk') :
    SourceOf talk' e source := ⟨toldIn_subset hpre h.told, hpre.subset h.opened⟩

/-- The walk is to go on with entries that the run was told of. -/
structure Walk.Told (walk : Walk) (talk : List Exchange) : Prop where
  pending : walk.pending ⊆ (toldIn talk).map (·.path)
  collected : walk.collected ⊆ toldIn talk

theorem Walk.Told.mono {walk : Walk} (h : walk.Told talk) (hpre : talk <+: talk') :
    walk.Told talk' where
  pending := List.Subset.trans h.pending (List.map_subset _ (toldIn_subset hpre))
  collected := List.Subset.trans h.collected (toldIn_subset hpre)

/-- After a round as before it, all that is to be done was told. -/
def GoesBack (job : Job) : Except Failure Next → List Exchange → Prop
  | .ok (.walk walk), talk => RefersBack job talk ∧ walk.Told talk
  | _, talk => RefersBack job talk

namespace Job

open Program

variable {α β : Type} {Q : Except Failure α → List Exchange → Prop} {job : Job}
  {file : FileStatus} {walk : Walk}

/-! ### Programs whose calls refer back -/

/-- Whatever the replies are, each call of the program refers to what was told before. -/
def Refers (job : Job) (p : Program α) (talk : List Exchange)
    (Q : Except Failure α → List Exchange → Prop) : Prop :=
  p.Keeps (Added fun _ => True) (RefersBack job) talk Q

theorem refers_call {c : Call} (h : RefersBack job talk) (hc : RefersTo job talk c) :
    job.Refers (ofCall c) talk fun _ => RefersBack job := by
  refine keeps_call ?_
  rintro r _ ⟨-, rfl⟩
  exact ⟨h.snoc hc, h.snoc hc⟩

/-- A program goes on with what the reply to its first call tells. -/
theorem refers_call_bind {c : Call} {f : c.Reply → Program α} (h : RefersBack job talk)
    (hc : RefersTo job talk c)
    (hfail : ∀ e talk', RefersBack job talk' → Q (.error e) talk')
    (hf : ∀ v talk', RefersBack job talk' → talk <+: talk' → ⟨c, .ok v⟩ ∈ talk' →
      job.Refers (f v) talk' Q) : job.Refers (ofCall c >>= f) talk Q :=
  keeps_added (fun _ _ => h.snoc hc) (fun e _ => hfail e _ (h.snoc hc)) fun v _ =>
    hf v _ (h.snoc hc) (List.prefix_append _ _) (List.mem_append_right _ List.mem_cons_self)

/-- What was told before a program is still told after it. -/
theorem refers_bind {p : Program β} {f : β → Program α}
    (h : job.Refers p talk fun _ => RefersBack job)
    (hfail : ∀ e talk', RefersBack job talk' → Q (.error e) talk')
    (hf : ∀ v talk', RefersBack job talk' → talk <+: talk' → job.Refers (f v) talk' Q) :
    job.Refers (p >>= f) talk Q := by
  have hgrows : p.Keeps (Added fun _ => True) (fun _ => True) talk fun _ talk' => talk <+: talk' :=
    keeps_of_moves (fun x before after hmove hpre => hmove.2 ▸ hpre.trans (List.prefix_append _ _))
      (List.prefix_refl _) p
  refine keeps_bind ((h.and hgrows).imp (fun _ hboth => hboth.1) ?_)
  rintro (e | v) talk' ⟨hback, hpre⟩
  · exact hfail e talk' hback
  · exact hf v talk' hback hpre

theorem refers_recover {p : Program α} {f : Failure → Program α}
    (h : job.Refers p talk fun _ => RefersBack job)
    (hf : ∀ e talk', RefersBack job talk' → job.Refers (f e) talk' fun _ => RefersBack job) :
    job.Refers (p.recover f) talk fun _ => RefersBack job := by
  refine keeps_recover (h.mono ?_)
  rintro (e | v) talk' hback
  · exact hf e talk' hback
  · exact hback

/-! ### Loading files -/

theorem refers_noteFailure (h : RefersBack job talk) (path reason : Bytes) :
    job.Refers (noteFailure path reason) talk fun _ => RefersBack job :=
  refers_call_bind h (.own rfl) (fun _ _ h => h) fun _ _ h _ _ => refers_call h (.own rfl)

theorem refers_loadPages (pageSize : Int) (n : Nat) (index loaded : Int)
    (h : RefersBack job talk) (hsource : SourceOf talk file source) :
    job.Refers (loadPages pageSize file source n index loaded) talk fun _ => RefersBack job := by
  induction n generalizing talk index loaded with
  | zero => exact keeps_pure h
  | succ n ih =>
    rw [loadPages]
    refine refers_call_bind h (.own rfl) (fun _ _ h => h) fun stopped talk h hpre _ => ?_
    replace hsource := hsource.mono hpre
    split
    · exact keeps_pure h
    refine refers_call_bind h (.read hsource) (fun _ _ h => h) fun data? talk h hpre hread => ?_
    replace hsource := hsource.mono hpre
    rcases data? with _ | data
    · exact keeps_pure h
    refine refers_call_bind h (.writePage hsource hread) (fun _ _ h => h)
      fun written talk h hpre _ => ?_
    replace hsource := hsource.mono hpre
    split
    · exact refers_call_bind h (.own rfl) (fun _ _ h => h) fun _ _ h hpre _ =>
        ih _ _ h (hsource.mono hpre)
    · exact refers_bind (refers_noteFailure h _ _) (fun _ _ h => h) fun _ _ h _ => keeps_pure h

theorem refers_copyFile (o : LoadOptions) (pageSize : Int) (h : RefersBack job talk)
    (hfile : file ∈ toldIn talk) :
    job.Refers (copyFile o pageSize file) talk fun _ => RefersBack job := by
  rw [copyFile]
  refine refers_call_bind h (.openFile hfile) (fun _ _ h => h) fun source talk h hpre hopened => ?_
  have hsource : SourceOf talk file source := ⟨toldIn_subset hpre hfile, hopened⟩
  dsimp only
  split
  · rw [fail_bind]
    exact keeps_fail h
  refine refers_bind (refers_loadPages pageSize _ _ _ h hsource) (fun _ _ h => h)
    fun loaded? talk h hpre => ?_
  split
  · exact keeps_pure h
  split
  · rw [verifyFile]
    refine refers_call_bind h (.status (toldIn_subset hpre hsource.told)) (fun _ _ h => h)
      fun after talk h _ _ => ?_
    split
    · exact refers_noteFailure h _ _
    · exact keeps_pure h
  · exact keeps_pure h

theorem refers_loadFile (o : LoadOptions) (pageSize : Int) (h : RefersBack job talk)
    (hfile : file ∈ toldIn talk) :
    job.Refers (loadFile o pageSize file) talk fun _ => RefersBack job := by
  rw [loadFile]
  split
  · exact keeps_pure h
  split
  · refine refers_call_bind h (.isCached hfile) (fun _ _ h => h) fun cached talk h hpre _ => ?_
    split
    · exact refers_call h (.own rfl)
    · exact refers_copyFile o pageSize h (toldIn_subset hpre hfile)
  · exact refers_copyFile o pageSize h hfile

theorem refers_loadEach (o : LoadOptions) (pageSize : Int) {files : List FileStatus}
    (h : RefersBack job talk) (hfiles : files ⊆ toldIn talk) :
    job.Refers (loadEach o pageSize files) talk fun _ => RefersBack job := by
  induction files generalizing talk with
  | nil => exact keeps_pure h
  | cons file rest ih =>
    rw [loadEach]
    refine refers_call_bind h (.own rfl) (fun _ _ h => h) fun stopped talk h hpre _ => ?_
    replace hfiles := List.Subset.trans hfiles (toldIn_subset hpre)
    split
    · exact keeps_pure h
    have hload := refers_loadFile o pageSize h (hfiles List.mem_cons_self)
    refine refers_bind (refers_recover hload fun e _ h => ?_) (fun _ _ h => h)
      fun _ talk h hpre => ?_
    · split
      · exact refers_noteFailure h _ _
      · exact keeps_fail h
    · have hrest := List.Subset.trans (List.subset_of_cons_subset hfiles) (toldIn_subset hpre)
      exact refers_call_bind h (.own rfl) (fun _ _ h => h) fun _ _ h hpre _ =>
        ih h (List.Subset.trans hrest (toldIn_subset hpre))

theorem refers_loadFiles (o : LoadOptions) (pageSize : Int) {files : List FileStatus}
    (h : RefersBack job talk) (hfiles : files ⊆ toldIn talk) :
    job.Refers (loadFiles o pageSize files) talk fun _ => RefersBack job :=
  refers_call_bind h (.own rfl) (fun _ _ h => h) fun _ _ h hpre _ =>
    refers_loadEach o pageSize h (List.Subset.trans hfiles (toldIn_subset hpre))

/-! ### Walking directories -/

theorem refers_begin (job : Job) (pageSize : Int) :
    job.Refers (job.begin pageSize) [] (GoesBack job) := by
  rw [begin]
  refine refers_call_bind .nil .job (fun _ _ h => h) fun root talk h _ htold => ?_
  have hroot : [root] ⊆ toldIn talk := fun e he => List.mem_flatMap.2 ⟨_, htold, he⟩
  split
  · exact keeps_pure ⟨h, List.map_subset FileStatus.path hroot, List.nil_subset _⟩
  · exact refers_bind (refers_loadFiles _ _ h hroot) (fun _ _ h => h) fun _ _ h _ => keeps_pure h

theorem refers_finishWalk (pageSize : Int) (h : RefersBack job talk) (hwalk : walk.Told talk) :
    job.Refers (job.finishWalk pageSize walk) talk (GoesBack job) := by
  rw [finishWalk]
  split
  · exact refers_bind (refers_loadFiles _ _ h hwalk.collected) (fun _ _ h => h)
      fun _ _ h _ => keeps_pure h
  · exact keeps_pure h

theorem refers_round (pageSize : Int) (h : RefersBack job talk) (hwalk : walk.Told talk) :
    job.Refers (job.round pageSize walk) talk (GoesBack job) := by
  obtain ⟨pending, collected⟩ := walk
  cases pending with
  | nil => exact refers_finishWalk pageSize h hwalk
  | cons current rest =>
    rw [round]
    refine refers_call_bind h (.own rfl) (fun _ _ h => h) fun stopped talk h hpre _ => ?_
    replace hwalk := hwalk.mono hpre
    split
    · exact refers_finishWalk pageSize h hwalk
    obtain ⟨directory, hdirectory, rfl⟩ := List.mem_map.1 (hwalk.pending List.mem_cons_self)
    refine refers_call_bind h (.list hdirectory) (fun _ _ h => h)
      fun children talk h hpre htold => ?_
    have hchildren : children ⊆ toldIn talk := fun e he => List.mem_flatMap.2 ⟨_, htold, he⟩
    have hfiles : (children.filter fun c => !c.isFolder && job.selects c) ⊆ toldIn talk :=
      List.Subset.trans (List.filter_subset_self _) hchildren
    -- What is pending afterwards was told, before or by this listing.
    have hpending : rest ++ (children.filter (·.isFolder)).map (·.path) ⊆
        (toldIn talk).map (·.path) :=
      List.append_subset.2
        ⟨List.Subset.trans (List.subset_of_cons_subset hwalk.pending)
          (List.map_subset _ (toldIn_subset hpre)),
        List.map_subset _ (List.Subset.trans (List.filter_subset_self _) hchildren)⟩
    have hcollected := List.Subset.trans hwalk.collected (toldIn_subset hpre)
    dsimp only
    split
    · refine refers_bind (refers_loadFiles _ _ h hfiles) (fun _ _ h => h) fun _ _ h hpre => ?_
      exact keeps_pure ⟨h, Walk.Told.mono ⟨hpending, hcollected⟩ hpre⟩
    · exact keeps_pure ⟨h, hpending, List.append_subset.2 ⟨hcollected, hfiles⟩⟩

end Job

/-! ### The talk of a run -/

namespace Chronicle

section

variable {σ : Type} {w : Workplace σ} {c : Chronicle σ} {next : Nat → Event σ} {job : Job}
  {limit k : Nat}

/-- Each call of a run refers to what the run was told before. -/
theorem refersBack_talk (hw : w.Apart)
    (ho : (c.service w).Orderly limit c.accepted c.begun c.ended) (hbegun : c.Begun w job)
    (hlasts : c.Lasts w next job k) : RefersBack job (c.talk w next job.path k) := by
  have hf : c.Follows w next job (Added fun _ => True) fun k talk =>
      talk = c.talk w next job.path k ∧ (c.upTo w next k).Heard w job talk :=
    follows_talk hw ho fun _ _ _ _ _ => trivial
  obtain ⟨-, -, talk, -, ⟨rfl, -⟩, -, hback⟩ :=
    hf.keeps hw ho (fun walk talk ⟨hback, htold⟩ _ => Job.refers_round _ hback htold)
      (Job.refers_begin job _) .nil hbegun.doing ⟨rfl, hbegun.heard⟩ hlasts
  exact hback

/-- What is said in a run is said as the work gets on. -/
theorem exists_of_mem_talk {path : Bytes} {x : Exchange} (h : x ∈ c.talk w next path k) :
    ∃ i < k, next i = .work ∧ ∃ call,
      x = ⟨call, (w.perform path call (c.upTo w next i).state).result⟩ := by
  induction k with
  | zero => cases h
  | succ k ih =>
    rw [talk, List.mem_append] at h
    rcases h with h | h
    · obtain ⟨i, hi, hx⟩ := ih h
      exact ⟨i, Nat.lt_succ_of_lt hi, hx⟩
    · by_cases hwork : next k = .work
      · rw [hwork, saidIn] at h
        split at h
        · split at h
          · exact ⟨k, Nat.lt_succ_self k, hwork, _, List.mem_singleton.1 h⟩
          · cases h
        · cases h
      · rw [saidIn_of_ne_work hwork] at h
        cases h

end

end Chronicle

/-! ### Runs on local files -/

/-- A disk in order stays in order when a page is written. -/
theorem ordinary_write {d : Disk} (h : d.Ordinary) (p : LocalPages) (id : Bytes) (index : Int)
    (data : Bytes) : (p.write id index data d).state.Ordinary := by
  rw [LocalPages.write]
  split
  · exact h
  · split
    · exact h
    · next hopen => exact (h.openForWriting hopen).write _ _ _

namespace Chronicle

variable {f : LocalFiles} {p : LocalPages} {c : Chronicle Installation}
  {next : Nat → Event Installation} {job : Job} {limit k : Nat} {path : Bytes}

/-- What a run is told of is kept where its path leads. -/
theorem coherent_of_told (hroot : f.root ≠ [Byte.slash])
    (hdisk : ∀ i, (c.upTo (.ofDisk f p) next i).state.disk.Ordinary)
    (he : e ∈ toldIn (c.talk (.ofDisk f p) next path k)) : f.Coherent e := by
  obtain ⟨x, hx, he⟩ := List.mem_flatMap.1 he
  obtain ⟨i, -, -, call, rfl⟩ := exists_of_mem_talk hx
  cases call with
  | status q =>
    have hstatus : ((Workplace.ofDisk f p).perform path (.status q)
        (c.upTo (.ofDisk f p) next i).state).result =
          f.status (c.upTo (.ofDisk f p) next i).state.disk q := rfl
    rw [hstatus] at he
    rcases hreply : f.status (c.upTo (.ofDisk f p) next i).state.disk q with _ | found <;>
      rw [hreply] at he
    · cases he
    · rw [List.mem_singleton.1 he]
      exact LocalFiles.coherent_of_status hreply
  | list q =>
    have hlist : ((Workplace.ofDisk f p).perform path (.list q)
        (c.upTo (.ofDisk f p) next i).state).result =
          (f.onDisk.list q (c.upTo (.ofDisk f p) next i).state.disk).result := rfl
    rw [hlist] at he
    rcases hreply : (f.onDisk.list q (c.upTo (.ofDisk f p) next i).state.disk).result with
      _ | entries <;> rw [hreply] at he
    · cases he
    · exact (LocalFiles.coherent_of_list hroot (hdisk i) hreply).2 e he
  | _ => cases he

/-- What is opened under the path of a coherent entry is at its backing path then. -/
theorem exists_of_opened (h : f.Coherent e)
    (hopened : ⟨.openFile e.path, .ok source⟩ ∈ c.talk (.ofDisk f p) next path k) :
    ∃ i < k, next i = .work ∧ ∃ entry,
      (c.upTo (.ofDisk f p) next i).state.disk.find true e.backing =
        .ok (source.handle, entry) := by
  obtain ⟨i, hi, hwork, call, hx⟩ := exists_of_mem_talk hopened
  obtain ⟨rfl, hreply⟩ := Exchange.mk.inj hx
  have hopens : f.openFile (c.upTo (.ofDisk f p) next i).state.disk e.path = .ok source :=
    (eq_of_heq hreply).symm
  refine ⟨i, hi, hwork, ?_⟩
  rw [h.looksUp.openFile_eq, Disk.find_toNul] at hopens
  split at hopens <;> cases hopens
  next entry hfind => exact ⟨entry, hfind⟩

/-- However a run names a file in what it has said, it is one and the same file. -/
structure KeepsToFiles (f : LocalFiles) (p : LocalPages) (c : Chronicle Installation)
    (next : Nat → Event Installation) (job : Job) (k : Nat) : Prop where
  /-- Each call is about the path of the job, or about an entry that the run was told of. -/
  refersBack : RefersBack job (c.talk (.ofDisk f p) next job.path k)
  /-- An entry is kept where its path leads. -/
  coherent : ∀ e ∈ toldIn (c.talk (.ofDisk f p) next job.path k), f.Coherent e
  /-- All calls with the path of an entry look it up under its backing path. -/
  looksUp : ∀ e ∈ toldIn (c.talk (.ofDisk f p) next job.path k),
    f.LooksUp e.path e.path e.backing.toNul
  /-- One backing path, for which pages are named, is that of one path only. -/
  path_eq : ∀ e ∈ toldIn (c.talk (.ofDisk f p) next job.path k),
    ∀ e' ∈ toldIn (c.talk (.ofDisk f p) next job.path k), e.backing = e'.backing → e.path = e'.path
  /-- What was opened under the path of an entry was at its backing path then. -/
  opened : ∀ e ∈ toldIn (c.talk (.ofDisk f p) next job.path k), ∀ source,
    ⟨.openFile e.path, .ok source⟩ ∈ c.talk (.ofDisk f p) next job.path k →
      ∃ i < k, next i = .work ∧ ∃ entry,
        (c.upTo (.ofDisk f p) next i).state.disk.find true e.backing = .ok (source.handle, entry)

theorem keepsToFiles (hroot : f.root ≠ [Byte.slash])
    (ho : (c.service (.ofDisk f p)).Orderly limit c.accepted c.begun c.ended)
    (hbegun : c.Begun (.ofDisk f p) job) (hdisk : c.state.disk.Ordinary)
    (hworld : ∀ k x, next k = .world x → x.disk.Ordinary)
    (hlasts : c.Lasts (.ofDisk f p) next job k) : c.KeepsToFiles f p next job k := by
  have hordinary : ∀ i, (c.upTo (.ofDisk f p) next i).state.disk.Ordinary :=
    disk_upTo hdisk (fun k x hx _ => hworld k x hx) fun _ id index data h =>
      ordinary_write h p id index data
  have hcoherent : ∀ e ∈ toldIn (c.talk (.ofDisk f p) next job.path k), f.Coherent e :=
    fun e he => coherent_of_told hroot hordinary he
  exact {
    refersBack := refersBack_talk (apart_ofDisk f p) ho hbegun hlasts
    coherent := hcoherent
    looksUp := fun e he => (hcoherent e he).looksUp
    path_eq := fun e he e' he' heq => (hcoherent e he).path_eq (hcoherent e' he') heq
    opened := fun e he source hopened => exists_of_opened (hcoherent e he) hopened }

end Chronicle

/-! ### One path for each file -/

/-- The paths of local files have one canonical form each, and what is listed is looked up
    where it is. -/
structure PathsAgree (f : LocalFiles) : Prop where
  /-- A path is refused if a segment goes up. -/
  refused : ∀ path segments, Bytes.PiecesOf Byte.slash path segments →
    (".." : Bytes) ∈ segments → LocalFiles.normalize path = .error (LocalFiles.refusal path)
  /-- Any other path is brought to a slash and the segments that count, joined by slashes. -/
  canonical : ∀ path segments, Bytes.PiecesOf Byte.slash path segments →
    (".." : Bytes) ∉ segments → LocalFiles.normalize path = .ok (Byte.slash ::
      Bytes.join [Byte.slash] (segments.filter fun s => s ≠ [] ∧ s ≠ "."))
  idempotent : ∀ path logical, LocalFiles.normalize path = .ok logical →
    LocalFiles.normalize logical = .ok logical
  /-- Paths with the same segments that count lead to the same path of the disk. -/
  paths_eq : ∀ path path' segments segments', Bytes.PiecesOf Byte.slash path segments →
    Bytes.PiecesOf Byte.slash path' segments' →
    (".." : Bytes) ∉ segments → (".." : Bytes) ∉ segments' →
    (segments.filter fun s => s ≠ [] ∧ s ≠ ".") = (segments'.filter fun s => s ≠ [] ∧ s ≠ ".") →
      f.paths path = f.paths path'
  /-- A directory lists its entries in the order of their names, and each is kept where its path
      leads. -/
  listed : ∀ d path entries, Disk.Ordinary d → (f.onDisk.list path d).result = .ok entries →
    (entries.map (·.name)).Pairwise (· < ·) ∧ ∀ e ∈ entries, f.Coherent e
  /-- A run keeps to the files that it is told of, as long as it lasts. -/
  loaded : ∀ (p : LocalPages) (c : Chronicle Installation) next job limit k,
    (c.service (.ofDisk f p)).Orderly limit c.accepted c.begun c.ended →
    c.Begun (.ofDisk f p) job → c.state.disk.Ordinary →
    (∀ k x, next k = .world x → x.disk.Ordinary) →
    c.Lasts (.ofDisk f p) next job k → c.KeepsToFiles f p next job k

/-- Whatever the root is, paths have one canonical form, listings agree with lookups, and so a
    run that comes back with the path of an entry, and names pages for its backing path, means
    one and the same file. -/
theorem paths_agree (root : Bytes) : PathsAgree (.ofRoot root) where
  refused path segments h hup :=
    LocalFiles.normalize_of_mem (Bytes.piecesOf_iff.1 h ▸ hup)
  canonical path segments := LocalFiles.normalize_of_not_mem
  idempotent path logical h := (LocalFiles.isCanonical_of_normalize h).normalize_eq
  paths_eq path path' segments segments' h h' hup hup' hsame := by
    rw [LocalFiles.paths, LocalFiles.paths, LocalFiles.normalize_of_not_mem h hup,
      LocalFiles.normalize_of_not_mem h' hup', hsame]
  listed d path entries h := LocalFiles.coherent_of_list (LocalFiles.root_ofRoot_ne root) h
  loaded p c next job limit k :=
    Chronicle.keepsToFiles (LocalFiles.root_ofRoot_ne root)

/-! ### A directory that is loaded -/

section Small

/-- The whole run that loads a directory keeps to the directory, the file and the directory in it,
    and the file in that one. -/
theorem paths_agree_small :
    LocalFiles.ofRoot "/files/" = SmallDisk.files ∧
    (SmallDisk.begun "/d" {}).KeepsToFiles SmallDisk.files SmallDisk.pages (fun _ => .work)
      { path := "/d", options := {} } 27 ∧
    (toldIn ((SmallDisk.begun "/d" {}).talk (.ofDisk SmallDisk.files SmallDisk.pages)
      (fun _ => .work) "/d" 27)).map (·.backing) =
        ["/files/d", "/files/d/a", "/files/d/e", "/files/d/e/b"] := by
  have hroot : LocalFiles.ofRoot "/files/" = SmallDisk.files := by decide
  have hagree := paths_agree "/files/"
  rw [hroot] at hagree
  refine ⟨hroot, ?_, by decide +kernel⟩
  refine hagree.loaded SmallDisk.pages (SmallDisk.begun "/d" {}) _ _ 128 27
    (SmallDisk.orderly_begun "/d" {}) ⟨rfl, rfl⟩ ⟨by decide +kernel⟩ nofun ?_
  exact Chronicle.lasts_of_isInRun (by decide +kernel)

end Small

end PageServer.Load
