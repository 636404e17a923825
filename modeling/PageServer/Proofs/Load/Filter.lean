import PageServer.Proofs.Load.Copy
import PageServer.Proofs.Load.TreeSurvey

/-!
# What is counted and loaded

A file is counted before it is loaded, and then what there is to load of it is loaded, or it is
noted why not (`Settled`). So a run counts and writes pages of selected files only, and when it
is over without having been told to stop, all of them are settled
(`Chronicle.counts_selected`).

A file at the path itself is selected whether the filter lets it through or not.
-/

namespace PageServer.Load

open Program

/-! ### Files that are loaded -/

/-- A page of a file was read and written. -/
def PageCopied (pageSize : Int) (e : FileStatus) (source : OpenFile) (i : Nat)
    (talk : List Exchange) : Prop :=
  ∃ data, (⟨.read source (i * pageSize) (min pageSize (e.length - i * pageSize)),
      .ok (some data)⟩ : Exchange) ∈ talk ∧
    (⟨.writePage (fileId e.backing) i data, .ok true⟩ : Exchange) ∈ talk

/-- What there was to load of the file was loaded, or it was noted why not. -/
def Settled (o : LoadOptions) (pageSize : Int) (t : Tally) (e : FileStatus) (talk : List Exchange) :
    Prop :=
  o.metadataOnly ∨
  (o.skipExisting ∧ (⟨.isCached (fileId e.backing) 0, .ok true⟩ : Exchange) ∈ talk) ∨
  e.path ∈ (tallyAfter t talk).failures.map (·.1) ∨
  ∃ source, (⟨.openFile e.path, .ok source⟩ : Exchange) ∈ talk ∧
    ∀ i < Job.pageCount e.length pageSize, PageCopied pageSize e source i talk

/-- The file is settled, unless the run was told to stop. -/
def Handled (o : LoadOptions) (pageSize : Int) (t : Tally) (e : FileStatus) (talk : List Exchange) :
    Prop := Calm talk → Settled o pageSize t e talk

/-- How the copying of pages ends: all of them are copied, or it is noted that a page was declined,
    unless the run was told to stop. -/
def Copies (pageSize : Int) (t : Tally) (e : FileStatus) (source : OpenFile) :
    Except Failure (Option Int) → List Exchange → Prop
  | .ok (some _), talk => ∀ i < Job.pageCount e.length pageSize, PageCopied pageSize e source i talk
  | .ok none, talk => Calm talk → e.path ∈ (tallyAfter t talk).failures.map (·.1)
  | .error _, _ => True

section Files

variable {answers : Exchange → Prop} {o : LoadOptions} {pageSize : Int} {t : Tally}
  {e : FileStatus} {files : List FileStatus} {talk : List Exchange} {x : Exchange}
  {ids : List Bytes} {source : OpenFile} {survey : Survey} {path : Bytes}
  {opened : Bytes → OpenFile → Prop}

theorem calm_snoc : Calm (talk ++ [x]) ↔ Calm talk ∧ ¬ x.saysStop := by
  rw [Calm, List.forall_mem_append, List.forall_mem_singleton, Calm]

/-- The run is told to stop. -/
theorem saysStop_true : Exchange.saysStop ⟨.isStopped, .ok true⟩ := fun h => by cases h

theorem PageCopied.snoc {i : Nat} (h : PageCopied pageSize e source i talk) (x : Exchange) :
    PageCopied pageSize e source i (talk ++ [x]) :=
  let ⟨data, hread, hwrite⟩ := h
  ⟨data, List.mem_append_left _ hread, List.mem_append_left _ hwrite⟩

theorem Settled.snoc (h : Settled o pageSize t e talk)
    (hx : ∀ t : Tally, t.failures <+: (x.count t).failures) :
    Settled o pageSize t e (talk ++ [x]) := by
  rcases h with h | ⟨hskip, hcached⟩ | hnoted | ⟨source, hopen, hpages⟩
  · exact .inl h
  · exact .inr (.inl ⟨hskip, List.mem_append_left _ hcached⟩)
  · rw [Settled, tallyAfter_snoc]
    exact .inr (.inr (.inl (((hx _).map _).subset hnoted)))
  · have hpages' := fun i hi => (hpages i hi).snoc x
    exact .inr (.inr (.inr ⟨source, List.mem_append_left _ hopen, hpages'⟩))

theorem Handled.snoc (h : Handled o pageSize t e talk)
    (hx : ∀ t : Tally, t.failures <+: (x.count t).failures) :
    Handled o pageSize t e (talk ++ [x]) :=
  fun hcalm => (h (calm_snoc.1 hcalm).1).snoc hx

/-- A file stays settled while others are loaded. -/
theorem Handled.keeps {α : Type} {p : Program α} (hp : p.Only (Call.Loads ids))
    (h : Handled o pageSize t e talk) :
    p.Keeps (Added answers) (fun _ => True) talk fun _ talk => Handled o pageSize t e talk :=
  (hp.keeps_added (J := Handled o pageSize t e) answers
    (fun _ _ hx h => h.snoc hx.failures_kept) h).imp (fun _ _ => trivial) fun _ _ h => h

/-- A file stays settled while the others are loaded after it. -/
theorem Handled.others (h : Handled o pageSize t e talk)
    (hloads : ∀ talk, (Job.loadEach o pageSize files).Keeps (Added answers) (fun _ => True) talk
      fun r talk => r = .ok () → ∀ e' ∈ files, Handled o pageSize t e' talk) :
    (do
      ofCall (.update fun t => { t with filesProcessed := t.filesProcessed + 1 })
      Job.loadEach o pageSize files : Program Unit).Keeps (Added answers) (fun _ => True) talk
        fun r talk => r = .ok () → ∀ e' ∈ e :: files, Handled o pageSize t e' talk := by
  have hothers : (do
      ofCall (.update fun t => { t with filesProcessed := t.filesProcessed + 1 })
      Job.loadEach o pageSize files : Program Unit).Keeps (Added answers) (fun _ => True) talk
        fun r talk => r = .ok () → ∀ e' ∈ files, Handled o pageSize t e' talk := by
    exact keeps_added (fun _ _ => trivial) (fun _ _ h => by cases h) fun _ _ => hloads _
  refine ((h.keeps (Job.others_only o pageSize files)).and hothers).imp (fun _ _ => trivial) ?_
  exact fun r talk' hQ hr => List.forall_mem_cons.2 ⟨hQ.1, hQ.2 hr⟩

namespace Job

/-- A failure that was noted is among the failures. -/
theorem noteFailure_notes (t : Tally) (path reason : Bytes) :
    (noteFailure path reason).Keeps (Added answers) (fun _ => True) talk fun r talk =>
      r = .ok () → path ∈ (tallyAfter t talk).failures.map (·.1) := by
  rw [noteFailure]
  refine keeps_added (fun _ _ => trivial) (fun _ _ h => by cases h) fun _ _ => ?_
  refine keeps_call fun r talk' hmove => ⟨trivial, fun _ => ?_⟩
  obtain ⟨-, rfl⟩ := hmove
  rw [tallyAfter_snoc]
  simp [Exchange.count]

/-- The pages of a file are copied up to the end that it is shown with. -/
theorem loadPages_copies (hanswers : ∀ x, answers x → survey.Shown path opened x)
    (he : survey.Below e) (hopened : opened e.path source) (t : Tally) {n i : Nat}
    (hcount : i + n = pageCount e.length pageSize) (loaded : Int)
    (h : ∀ j < i, PageCopied pageSize e source j talk) :
    (loadPages pageSize e source n i loaded).Keeps (Added answers) (fun _ => True) talk
      (Copies pageSize t e source) := by
  induction n generalizing i talk loaded with
  | zero => exact keeps_pure fun j hj => h j (by omega)
  | succ n ih =>
    -- The page starts in front of the end of the file, so there are bytes to read.
    have hpos : 0 < pageSize := by
      by_contra hneg
      rw [pageCount, if_pos (Int.not_lt.1 hneg)] at hcount
      omega
    have hlt : i * pageSize < e.length := (lt_pageCount_iff e.length hpos i).1 (by omega)
    have hstart : 0 ≤ i * pageSize := Int.mul_nonneg (Int.natCast_nonneg i) (Int.le_of_lt hpos)
    rw [loadPages]
    refine keeps_added (fun _ _ => trivial) (fun _ _ => trivial) fun stopped _ => ?_
    split
    · next hstop =>
      refine keeps_pure fun hcalm => absurd ?_ (calm_snoc.1 hcalm).2
      rw [hstop]
      exact saysStop_true
    refine keeps_added (fun _ _ => trivial) (fun _ _ => trivial) fun data? hx => ?_
    rcases data? with _ | data
    · -- A read in front of the end is not answered with nothing.
      have hend := (hanswers _ hx).reads e source _ _ rfl he hopened hstart (by omega)
      omega
    refine keeps_added (fun _ _ => trivial) (fun _ _ => trivial) fun written _ => ?_
    cases written with
    | false =>
      rw [if_neg Bool.false_ne_true]
      refine keeps_bind ((noteFailure_notes t _ _).mono fun r talk' hnoted => ?_)
      cases r with
      | error e' => exact trivial
      | ok v => exact fun _ => hnoted rfl
    | true =>
      rw [if_pos rfl]
      refine keeps_added (fun _ _ => trivial) (fun _ _ => trivial) fun _ _ => ?_
      refine ih (i := i + 1) (by omega) _ fun j hj => ?_
      rcases Nat.lt_succ_iff_lt_or_eq.1 hj with hlt | rfl
      · exact ((((h j hlt).snoc _).snoc _).snoc _).snoc _
      · exact ⟨data, by simp, by simp⟩

/-- A file that is copied is settled. -/
theorem copyFile_handles (hanswers : ∀ x, answers x → survey.Shown path opened x)
    (he : survey.Below e) (t : Tally) :
    (copyFile o pageSize e).Keeps (Added answers) (fun _ => True) talk fun r talk =>
      r = .ok () → Handled o pageSize t e talk := by
  rw [copyFile]
  refine keeps_added (fun _ _ => trivial) (fun _ _ h => by cases h) fun source hx => ?_
  have hopened := (hanswers _ hx).opens e.path source rfl
  dsimp only
  split
  · exact keeps_bind (keeps_fail fun h => by cases h)
  have hmem : (⟨.openFile e.path, .ok source⟩ : Exchange) ∈
      talk ++ [⟨.openFile e.path, .ok source⟩] := by simp
  generalize talk ++ [⟨.openFile e.path, .ok source⟩] = talk at hmem ⊢
  have hnone : ∀ j < 0, PageCopied pageSize e source j talk := fun j hj =>
    absurd hj (Nat.not_lt_zero j)
  have hcopies := loadPages_copies hanswers he hopened t
    (Nat.zero_add (pageCount e.length pageSize)) 0 hnone
  -- That the file was opened stays said, whatever is said later.
  have hstays := keeps_of_moves
    (fun x talk talk' (hmove : Added answers x talk talk') hmem => by
      obtain ⟨-, rfl⟩ := hmove
      exact List.mem_append_left _ hmem) hmem
    (loadPages pageSize e source (pageCount e.length pageSize) 0 0)
  refine keeps_bind ((hcopies.and hstays).imp (fun _ _ => trivial) fun r talk' hQ => ?_)
  obtain ⟨hcopied, hopen⟩ := hQ
  rcases r with e' | _ | v
  · rintro ⟨⟩
  · exact fun _ hcalm => .inr (.inr (.inl (hcopied hcalm)))
  · have hhandled : Handled o pageSize t e talk' := fun _ =>
      .inr (.inr (.inr ⟨source, hopen, hcopied⟩))
    simp only [Then]
    split
    · have honly : (verifyFile e v).Only (Call.Loads []) := verifyFile_only e v
      exact (hhandled.keeps honly).mono fun _ _ h _ => h
    · exact keeps_pure fun _ => hhandled

/-- A file that is loaded is settled. -/
theorem loadFile_handles (hanswers : ∀ x, answers x → survey.Shown path opened x)
    (he : survey.Below e) (t : Tally) :
    (loadFile o pageSize e).Keeps (Added answers) (fun _ => True) talk fun r talk =>
      r = .ok () → Handled o pageSize t e talk := by
  rw [loadFile]
  split
  · next hmetadata => exact keeps_pure fun _ _ => .inl hmetadata
  split
  · next hskip =>
    refine keeps_added (fun _ _ => trivial) (fun _ _ h => by cases h) fun cached _ => ?_
    split
    · next hcached =>
      have hhandled : Handled o pageSize t e
          (talk ++ [⟨.isCached (fileId e.backing) 0, .ok cached⟩]) := fun _ =>
        .inr (.inl ⟨hskip, by simp [hcached]⟩)
      have hcounts : Counts fun t => { t with filesSkipped := t.filesSkipped + 1 } :=
        ⟨fun _ _ => rfl, fun _ => List.prefix_refl _⟩
      have honly : (ofCall (.update fun t => { t with filesSkipped := t.filesSkipped + 1 })).Only
          (Call.Loads []) := only_call hcounts
      exact (hhandled.keeps honly).mono fun _ _ h _ => h
    · exact copyFile_handles hanswers he t
  · exact copyFile_handles hanswers he t

/-- Files that are loaded are settled, one after the other. -/
theorem loadEach_handles (hanswers : ∀ x, answers x → survey.Shown path opened x)
    {files : List FileStatus} (hfiles : ∀ e ∈ files, survey.Below e) (t : Tally) :
    (loadEach o pageSize files).Keeps (Added answers) (fun _ => True) talk fun r talk =>
      r = .ok () → ∀ e ∈ files, Handled o pageSize t e talk := by
  induction files generalizing talk with
  | nil => exact keeps_pure fun _ => List.forall_mem_nil _
  | cons e rest ih =>
    obtain ⟨he, hrest⟩ := List.forall_mem_cons.1 hfiles
    rw [loadEach]
    refine keeps_added (fun _ _ => trivial) (fun _ _ h => by cases h) fun stopped _ => ?_
    split
    · next hstop =>
      refine keeps_pure fun _ e _ hcalm => absurd ?_ (calm_snoc.1 hcalm).2
      rw [hstop]
      exact saysStop_true
    refine keeps_bind (keeps_recover ?_)
    refine (loadFile_handles hanswers he t).mono fun r talk' hfile => ?_
    rcases r with e' | v
    · dsimp only
      split
      · refine (noteFailure_notes t _ _).mono fun r talk' hnoted => ?_
        cases r with
        | error e'' => rintro ⟨⟩
        | ok v =>
          have hhandled : Handled o pageSize t e talk' := fun _ =>
            .inr (.inr (.inl (hnoted rfl)))
          exact hhandled.others fun _ => ih hrest
      · exact keeps_fail fun h => by cases h
    · exact (hfile rfl).others fun _ => ih hrest

end Job

end Files

/-! ### Files that are counted -/

/-- Just these files were counted, and pages were written of these alone. -/
structure Counted (t : Tally) (counted : List FileStatus) (talk : List Exchange) : Prop where
  filesTotal_eq : (tallyAfter t talk).filesTotal = t.filesTotal + counted.length
  writes : ∀ id index data r, (⟨.writePage id index data, r⟩ : Exchange) ∈ talk →
    id ∈ counted.map (fileId ·.backing)

section Counts

variable {answers : Exchange → Prop} {o : LoadOptions} {pageSize : Int} {t : Tally}
  {counted files : List FileStatus} {talk : List Exchange} {x : Exchange} {survey : Survey}
  {job : Job} {whole : List FileStatus} {opened : Bytes → OpenFile → Prop}

theorem Counted.snoc (h : Counted t counted talk)
    (htotal : ∀ t, (x.count t).filesTotal = t.filesTotal)
    (hwrite : ∀ id index data, x.call = .writePage id index data →
      id ∈ counted.map (fileId ·.backing)) : Counted t counted (talk ++ [x]) where
  filesTotal_eq := by
    rw [tallyAfter_snoc, htotal]
    exact h.filesTotal_eq
  writes := by
    intro id index data r hmem
    rcases List.mem_append.1 hmem with hmem | hmem
    · exact h.writes id index data r hmem
    · exact hwrite id index data (List.mem_singleton.1 hmem ▸ rfl)

/-- Looking for files counts none. -/
theorem Counted.look (h : Counted t counted talk) (hx : x.call.isLook) :
    Counted t counted (talk ++ [x]) := by
  obtain ⟨call, r⟩ := x
  refine h.snoc (fun t => ?_) fun id index data hcall => ?_
  · cases call with
    | update f => cases hx
    | _ => rfl
  · subst hcall
    cases hx

/-- Files that were counted are loaded. -/
theorem Counted.loads (h : Counted t counted talk)
    (hx : x.call.Loads (counted.map (fileId ·.backing))) : Counted t counted (talk ++ [x]) := by
  obtain ⟨call, r⟩ := x
  refine h.snoc (fun t => ?_) fun id index data hcall => ?_
  · cases call with
    | update f => exact hx.filesTotal_eq t
    | _ => rfl
  · subst hcall
    exact hx

/-- More files are counted. -/
theorem Counted.count (h : Counted t counted talk) (files : List FileStatus)
    (r : Except Failure Unit) : Counted t (counted ++ files) (talk ++
      [⟨.update fun t => { t with filesTotal := t.filesTotal + files.length }, r⟩]) where
  filesTotal_eq := by
    have htotal := h.filesTotal_eq
    rw [tallyAfter_snoc, List.length_append]
    simp only [Exchange.count]
    omega
  writes := by
    intro id index data r hmem
    rcases List.mem_append.1 hmem with hmem | hmem
    · rw [List.map_append]
      exact List.mem_append_left _ (h.writes id index data r hmem)
    · cases List.mem_singleton.1 hmem

/-- These files were counted, and each of them is settled unless the run was told to stop. -/
structure Loaded (o : LoadOptions) (pageSize : Int) (t : Tally) (counted : List FileStatus)
    (talk : List Exchange) : Prop extends Counted t counted talk where
  handled : ∀ e ∈ counted, Handled o pageSize t e talk

/-- Some of the selected files were counted. -/
def Accounts (whole : List FileStatus) (t : Tally) (talk : List Exchange) : Prop :=
  ∃ counted, counted <+: whole ∧ Counted t counted talk

/-- More files are counted and loaded. -/
theorem Job.loadFiles_loads (hanswers : ∀ x, answers x → survey.Shown job.path opened x)
    (hbelow : ∀ e ∈ files, survey.Below e) (hpre : counted ++ files <+: whole)
    (h : Loaded o pageSize t counted talk) :
    (loadFiles o pageSize files).Keeps (Added answers) (Accounts whole t) talk fun r talk =>
      (∀ v, r = .ok v → Loaded o pageSize t (counted ++ files) talk) ∧
        ∀ e, r = .error e → ¬ CanHold pageSize := by
  have hsound : ∀ x, answers x → x.Sound := fun x hx => (hanswers x hx).sound
  rw [loadFiles]
  refine keeps_added (fun r _ => ⟨_, hpre, h.toCounted.count files r⟩)
    (fun e hx => absurd rfl ((hsound _ hx).own rfl e)) fun v _ => ?_
  have hcounted := h.toCounted.count files (.ok v)
  have hids : ∀ e ∈ files, fileId e.backing ∈ (counted ++ files).map (fileId ·.backing) :=
    fun e he => List.mem_map_of_mem (List.mem_append_right _ he)
  have hcounts := (loadEach_only o pageSize hids).keeps_added answers
    (fun x talk hx hcounted => Counted.loads hcounted hx) hcounted
  have hkept : ∀ e ∈ counted, Handled o pageSize t e (talk ++
      [⟨.update fun t => { t with filesTotal := t.filesTotal + files.length }, .ok v⟩]) :=
    fun e he => (h.handled e he).snoc fun _ => List.prefix_refl _
  -- What is counted already stays settled while the other files are loaded.
  have hold := (loadEach_only o pageSize hids).keeps_added answers
    (fun x talk hx (hhandled : ∀ e ∈ counted, Handled o pageSize t e talk) e he =>
      (hhandled e he).snoc hx.failures_kept) hkept
  have hloads := (hcounts.and hold).and (loadEach_handles hanswers hbelow t)
  have hfails := (loadEach_fails hsound o pageSize files).keeps
    (fun x talk talk' (hmove : Added answers x talk talk') => hmove.1)
  refine (hloads.and (hfails _)).imp
    (fun talk hJ => ⟨_, hpre, hJ.1.1.1⟩) fun r talk' hQ => ?_
  obtain ⟨⟨⟨hcounted', hold'⟩, hnew'⟩, hfails'⟩ := hQ
  exact ⟨fun v hv => ⟨hcounted', List.forall_mem_append.2 ⟨hold', hnew' hv⟩⟩,
    fun e he => (hfails' e he).1⟩

/-- The files that a survey finds are counted and loaded. -/
theorem Survey.loading_shown (hfinds : survey.Finds job whole) (hnamed : survey.Named) (t : Tally)
    (pageSize : Int) :
    Loading survey job pageSize whole (Added (survey.Shown job.path opened)) (Accounts whole t)
      (fun talk => ¬ Calm talk) (Loaded job.options pageSize t)
      (fun _ _ => ¬ Job.CanHold pageSize) where
  status counted r talk talk' _ hmove :=
    ⟨hmove.1.status r rfl, fun e he => hmove.1.sound.isFileSystem rfl e he⟩
  list counted dir r talk talk' _ hdir hmove :=
    ⟨hmove.1.list dir r rfl hdir, fun e he => hmove.1.sound.isFileSystem rfl e he⟩
  isStopped counted r talk talk' _ hmove := by
    obtain ⟨hx, rfl⟩ := hmove
    rcases r with e | _ | _
    · exact absurd rfl (hx.sound.own rfl e)
    · exact .inl rfl
    · exact .inr ⟨rfl, fun hcalm => (calm_snoc.1 hcalm).2 saysStop_true⟩
  look counted x talk talk' hpre h hlook hmove := by
    obtain ⟨-, rfl⟩ := hmove
    have hcounted := h.toCounted.look hlook
    refine ⟨⟨counted, hpre, hcounted⟩, hcounted, fun e he => (h.handled e he).snoc fun t => ?_⟩
    obtain ⟨call, r⟩ := x
    cases call with
    | update f => cases hlook
    | _ => exact List.prefix_refl _
  halts x talk talk' hmove hhalts := by
    obtain ⟨-, rfl⟩ := hmove
    exact fun hcalm => hhalts (calm_snoc.1 hcalm).1
  load counted files talk hpre h := by
    refine Job.loadFiles_loads (fun _ h => h) (fun e he => ?_) hpre h
    exact ((hfinds.mem_iff hnamed).1 (hpre.subset (List.mem_append_right _ he))).1

end Counts

/-! ### Runs -/

namespace Chronicle

variable {σ : Type} {w : Workplace σ} {c : Chronicle σ} {next : Nat → Event σ} {job : Job}
  {limit : Nat} {t : Survey} {opened : Bytes → OpenFile → Prop}

/-- Just these files have been counted, and pages have been written of these alone. -/
structure HasCounted (w : Workplace σ) (c : Chronicle σ) (next : Nat → Event σ) (job : Job)
    (counted : List FileStatus) (k : Nat) : Prop where
  filesTotal_eq : ∃ job', ((c.upTo w next k).service w).jobs.get? job.path = some job' ∧
    job'.tally.filesTotal = counted.length
  nodup : (counted.map (·.path)).Nodup
  writes : ∀ id index data r,
    (⟨.writePage id index data, r⟩ : Exchange) ∈ c.talk w next job.path k →
      ∃ e ∈ counted, id = fileId e.backing

/-- All the time only selected files have been counted. -/
def CountsSelected (w : Workplace σ) (c : Chronicle σ) (next : Nat → Event σ) (job : Job)
    (t : Survey) : Prop :=
  ∀ k, c.Lasts w next job k →
    ∃ counted, c.HasCounted w next job counted k ∧ ∀ e ∈ counted, t.Selected job e

/-- All selected files have been counted, and they are settled. -/
def HasSettled (w : Workplace σ) (c : Chronicle σ) (next : Nat → Event σ) (job : Job) (t : Survey)
    (k : Nat) : Prop :=
  ∃ counted, c.HasCounted w next job counted k ∧ (∀ e, e ∈ counted ↔ t.Selected job e) ∧
    ∀ e ∈ counted, Settled job.options w.pages.pageSize job.tally e (c.talk w next job.path k)

/-- The run comes over, with all selected files settled unless it was told to stop. It breaks off
    only if something is not shown, or a page cannot be held. -/
def SettlesSelected (w : Workplace σ) (c : Chronicle σ) (next : Nat → Event σ) (job : Job)
    (t : Survey) : Prop :=
  ∃ k r, next k = .work ∧ c.Lasts w next job k ∧ (c.upTo w next k).Over w job r ∧
    match r with
    | .ok _ => ∀ job', ((c.upTo w next k).service w).jobs.get? job.path = some job' →
        job'.cancelled = false → c.HasSettled w next job t k
    | .error _ => t.Gap ∨ ¬ Job.CanHold w.pages.pageSize

/-- A run counts selected files only, and writes pages of these alone. When it is over without
    having been told to stop, and nothing failed to be listed, it has counted all of them, and what
    there was to load of them was loaded, or it was noted why not. -/
theorem counts_selected (hw : w.Apart)
    (ho : (c.service w).Orderly limit c.accepted c.begun c.ended) (hbegun : c.Begun w job)
    (hfresh : job.tally = {})
    (hshown : ∀ k call, t.Shown job.path opened
      ⟨call, (w.perform job.path call (c.upTo w next k).state).result⟩)
    (hnamed : t.Named) (hfinite : t.Finite) :
    c.CountsSelected w next job t ∧ (GetsOn next → c.SettlesSelected w next job t) := by
  obtain ⟨whole, hfinds⟩ := hfinite.exists_finds job
  have hl : Loading t job w.pages.pageSize whole (Added (t.Shown job.path opened)) _ _ _ _ :=
    Survey.loading_shown hfinds hnamed job.tally w.pages.pageSize
  have hf : c.Follows w next job (Added (t.Shown job.path opened)) fun k talk =>
      talk = c.talk w next job.path k ∧ (c.upTo w next k).Heard w job talk :=
    follows_talk hw ho fun k call _ _ _ => hshown k call
  have hstart : Loaded job.options w.pages.pageSize job.tally [] [] :=
    ⟨⟨(Int.add_zero _).symm, fun _ _ _ _ h => by cases h⟩, List.forall_mem_nil _⟩
  have hselected : ∀ {counted}, counted <+: whole → ∀ e ∈ counted, t.Selected job e :=
    fun hpre e he => (hfinds.mem_iff hnamed).1 (hpre.subset he)
  have hcounted : ∀ {k counted}, counted <+: whole →
      Counted job.tally counted (c.talk w next job.path k) →
      (c.upTo w next k).Heard w job (c.talk w next job.path k) →
      c.HasCounted w next job counted k := by
    intro k counted hpre hcounted hheard
    obtain ⟨job', hjob', -, htally, -⟩ := hheard.exists_job
    have htotal := hcounted.filesTotal_eq
    rw [← htally, hfresh] at htotal
    refine ⟨⟨job', hjob', htotal.trans (Int.zero_add _)⟩, ?_, fun id index data r hmem => ?_⟩
    · exact (hfinds.nodup hnamed).sublist (hpre.sublist.map _)
    · obtain ⟨e, he, hid⟩ := List.mem_map.1 (hcounted.writes id index data r hmem)
      exact ⟨e, he, hid.symm⟩
  refine ⟨fun k hlasts => ?_, fun hworks => ?_⟩
  · obtain ⟨talk, ⟨rfl, hheard⟩, counted, hpre, hcount⟩ := hl.keeps hfinds hf hw ho hbegun
      ⟨rfl, hbegun.heard⟩ hstart ⟨[], List.nil_prefix, hstart.toCounted⟩ hlasts
    exact ⟨counted, hcounted hpre hcount hheard, hselected hpre⟩
  · obtain ⟨k, r, talk, hk, hlasts, hover, ⟨rfl, hheard⟩, hends, -⟩ :=
      hl.exists_over hfinds hf hw ho hworks hbegun ⟨rfl, hbegun.heard⟩ hstart
    refine ⟨k, r, hk, hlasts, hover, ?_⟩
    rcases r with e | _ | walk
    · exact hends.elim .inr fun hgap => .inl hgap.1
    · intro job' hjob' hgoes
      obtain ⟨-, counted, hpre, hloaded, hall⟩ := hends
      obtain ⟨job'', hjob'', -, -, hcalm⟩ := hheard.exists_job
      obtain rfl := Option.some.inj (hjob'.symm.trans hjob'')
      -- A job that was not told to stop was told nothing of the kind.
      have hcalm := hcalm hgoes
      obtain rfl := hall.resolve_left (not_not.2 hcalm)
      exact ⟨counted, hcounted hpre hloaded.toCounted hheard, fun e => hfinds.mem_iff hnamed,
        fun e he => hloaded.handled e he hcalm⟩
    · exact hends.elim

section Small

/-- Of the files below the directory the one that the filter lets through is loaded. -/
theorem counts_selected_small : ∃ pattern, Regex.Pattern.parse "b$" = .ok pattern ∧
    (SmallDisk.begun "/d" { filter := some "b$" }).CountsSelected
      (.ofDisk SmallDisk.files SmallDisk.pages) (fun _ => .work)
      { path := "/d", options := { filter := some "b$" }, filter := some pattern }
      (SmallDisk.files.survey SmallDisk.disk "/d") ∧
    (SmallDisk.begun "/d" { filter := some "b$" }).SettlesSelected
      (.ofDisk SmallDisk.files SmallDisk.pages) (fun _ => .work)
      { path := "/d", options := { filter := some "b$" }, filter := some pattern }
      (SmallDisk.files.survey SmallDisk.disk "/d") := by
  refine ⟨_, rfl, ?_⟩
  have hcovers := SmallDisk.covers_directory
  have hcounts := counts_selected (apart_ofDisk SmallDisk.files SmallDisk.pages)
    (SmallDisk.orderly_begun "/d" { filter := some "b$" }) ⟨rfl, rfl⟩ rfl
    (fun k call => SmallDisk.stands.shown hcovers SmallDisk.pages
      (SmallDisk.stands_upTo rfl k) call)
    (SmallDisk.stands.named_survey hcovers) (SmallDisk.stands.finite_survey hcovers)
  exact ⟨hcounts.1, hcounts.2 fun k => ⟨k, Nat.le_refl k, rfl⟩⟩

/-- A file at the path itself is counted though the filter matches no file at all. -/
theorem not_only_matching :
    ¬ ∀ (f : LocalFiles) (p : LocalPages) (c : Chronicle Installation) (job : Job)
      (pattern : Regex.Pattern) (top : Branch),
      (c.service (.ofDisk f p)).Orderly 128 c.accepted c.begun c.ended →
      c.Begun (.ofDisk f p) job → job.filter = some pattern →
      (∀ k, f.Stands (c.upTo (.ofDisk f p) (fun _ => .work) k).state.disk top) →
      (∀ x ∈ top.files, ¬ pattern.occursIn x.path) →
        ∀ k job', ((c.upTo (.ofDisk f p) (fun _ => .work) k).service (.ofDisk f p)).jobs.get?
          job.path = some job' → job'.tally.filesTotal = 0 := by
  intro hall
  obtain ⟨pattern, hpattern, hnone⟩ : ∃ pattern, Regex.Pattern.parse "c$" = .ok pattern ∧
      ∀ x ∈ SmallDisk.top.files, ¬ pattern.occursIn x.path := ⟨_, rfl, by decide +kernel⟩
  have hbegun : (SmallDisk.begun "/d/a" { filter := some "c$" }).Begun
      (.ofDisk SmallDisk.files SmallDisk.pages)
      { path := "/d/a", options := { filter := some "c$" }, filter := some pattern } := by
    cases hpattern
    exact ⟨rfl, rfl⟩
  -- The second call of the run counts the file.
  have hcounts : ∃ job', (((SmallDisk.begun "/d/a" { filter := some "c$" }).upTo
      (.ofDisk SmallDisk.files SmallDisk.pages) (fun _ => .work) 2).service
        (.ofDisk SmallDisk.files SmallDisk.pages)).jobs.get? "/d/a" = some job' ∧
          job'.tally.filesTotal = 1 := ⟨_, rfl, rfl⟩
  obtain ⟨job', hjob', htotal⟩ := hcounts
  have hzero := hall SmallDisk.files SmallDisk.pages _ _ pattern SmallDisk.top
    (SmallDisk.orderly_begun _ _) hbegun rfl (fun k => SmallDisk.stands_upTo rfl k) hnone 2 job'
    hjob'
  rw [hzero] at htotal
  cases htotal

end Small

end Chronicle

end PageServer.Load
