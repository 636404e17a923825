import PageServer.Proofs.Load.Ending
import PageServer.Proofs.Worker.Reads

/-!
# Loaded, then read

Pages of files that were loaded are read as they are in the files, and there are no others
(`Errand.Holds.read_page`). So a load that is accepted, and undisturbed by what happens
then, comes to its end: its job has succeeded, all files of the branch are counted, and each
page read of their ids answers with the bytes of the file (`Errand.load_then_read`).
-/

namespace PageServer.Load.Errand

open Chronicle Worker PageDesk

variable {e : Errand} {x s : Installation} {next : Nat → Event Installation}
  {kept : Bytes → Bytes} {file : FoundFile} {limit k : Nat} {t : Http.Target}

/-! ### Pages of files that were loaded -/

namespace Holds

variable {d : Disk}

theorem isFile_toNul (h : e.Holds kept d) (hfile : file ∈ e.top.files) {entry : DiskEntry}
    (hentry : d.entry? (e.store ++ [(e.idOf file).toNul]) = some entry) :
    ∃ content modified, entry = .file content modified := by
  rw [toNul_idOf] at hentry
  exact h.isFile file hfile entry hentry

/-- What the id of a file leads to is a page file. -/
theorem isFile_of_status (hf : e.Feasible) (h : e.Holds kept d) (hfile : file ∈ e.top.files) :
    ∀ entry, d.status (e.pages.pathFor (e.idOf file)) = .ok entry →
      ∃ content modified, entry = .file content modified := fun _ =>
  h.rootedAt.isFile_of_fits (e.isFileId_idOf file) ((e.toNul_idOf file).symm ▸ hf.fits_idOf file)
    fun _ => h.isFile_toNul hfile

/-- Under the id of a file there is what is held for it. -/
theorem content_eq (hf : e.Feasible) (h : e.Holds kept d) (hfile : file ∈ e.top.files) :
    e.pages.content d (e.idOf file) = kept (e.idOf file) := by
  rw [h.rootedAt.content_of_fits (e.isFileId_idOf file)
    ((e.toNul_idOf file).symm ▸ hf.fits_idOf file) (fun _ => h.isFile_toNul hfile), toNul_idOf]
  exact h.contentAt file hfile

/-- A page of a file is read if it starts in front of the end of the file, and is not there
    else. -/
theorem read_page (hf : e.Feasible) (h : e.Holds kept s.disk) (hfile : file ∈ e.top.files)
    (hkept : kept (e.idOf file) = file.content) (hasks : AsksWhole t ⟨e.idOf file, k⟩)
    (files : FileSystem Installation) (request : Http.Request) :
    if k * e.pages.pageSize < file.content.length then
      ((ofLocal files e.pages).read request t s).result =
        .ok (pageResponse (pageOf file.content e.pages.pageSize.toNat k))
    else FailsWith 404 ((ofLocal files e.pages).read request t s).result := by
  have hpos := hf.pageSize_pos
  have hends := hf.ends file hfile
  have hsize : e.pages.pageSize ≤ int64Max := Int.le_trans hf.pageSize_le (by decide)
  have hcut : e.pages.pageSize = cutLength e.pages.pageSize 0 e.pages.pageSize := by
    rw [cutLength_eq]
    omega
  have hcontent := (h.content_eq hf hfile).trans hkept
  have hstatus := h.isFile_of_status hf hfile
  have hfind : e.pages.find s.disk (e.idOf file) k = _ :=
    LocalPages.find_eq hpos (e.isFileId_idOf file) hstatus
  rw [hcontent] at hfind
  split
  · next hlt =>
    -- The page starts in front of the end, so it ends within numbers of sixty-four bits.
    rw [if_pos ⟨Int.natCast_nonneg k, by omega, hlt⟩] at hfind
    have hresult := (hasks.asks e.pages.pageSize).read_result (s := s) hcut files request hpos
      h.rootedAt.trimRoot_eq hstatus (by omega) (by dsimp only; omega) hf.pageSize_le
    rw [hfind, hcontent, if_neg (Option.some_ne_none _), if_neg (by dsimp only; omega)] at hresult
    have hbase : (k * e.pages.pageSize).toNat = k * e.pages.pageSize.toNat := by
      rw [Int.toNat_mul (Int.natCast_nonneg k) (Int.le_of_lt hpos), Int.toNat_natCast]
    rw [hresult, pageOf, Int.add_zero, hbase]
  · next hbehind =>
    rw [if_neg fun hthere => hbehind hthere.2.2] at hfind
    have hasks := hasks.asks e.pages.pageSize
    rw [PageDesk.read_result files request (asks_iff.1 hasks).1 hasks.rangeOf_eq s, hfind]
    exact ⟨_, rfl, rfl⟩

end Holds

/-! ### Loads that are accepted -/

variable {c : Chronicle Installation}

/-- The jobs are orderly whatever happens after a start without any. -/
theorem orderly_start (e : Errand) (hx : x.service = { limit })
    (events : List (Event Installation)) :
    ((run e.workplace { state := x } events).service e.workplace).Orderly limit
      (run e.workplace { state := x } events).accepted
      (run e.workplace { state := x } events).begun
      (run e.workplace { state := x } events).ended := by
  refine orderly_run e.apart ?_ events
  have hfresh : e.workplace.service.get x = { limit } := hx
  rw [service, hfresh]
  exact Service.orderly_fresh limit

/-- A load that is accepted waits, and nothing was loaded for it. -/
theorem after_load (hf : e.Feasible)
    (hreply : c.reply e.workplace e.path e.options = .ok (Service.submittedText e.path))
    (hshows : e.files.Shows c.state.disk e.top) (hholds : e.Holds (fun _ => []) c.state.disk) :
    e.path ∈ ((c.after e.workplace (.load e.path e.options)).service e.workplace).waiting ∧
      e.Stage (fun _ => []) {} (c.after e.workplace (.load e.path e.options)).state := by
  have hfilter : Service.parseFilter e.options = .ok none := by
    have hnone := hf.loads_all
    rw [Service.parseFilter]
    rcases hoption : e.options.filter with _ | text
    · rfl
    · rw [hoption, Option.getD_some] at hnone
      rw [hnone]
  have hidle := ((submit_valid e.apart c e.path hf.submits hfilter).2.1).1 hreply
  have hservice : (c.after e.workplace (.load e.path e.options)).service e.workplace =
      (c.service e.workplace).enter (e.job {}) := by
    rw [service_load e.apart, Service.load_submit hf.submits,
      Service.submit_of_idle hfilter hidle]
    rfl
  refine ⟨?_, hholds, hshows, ?_⟩
  · rw [hservice]
    exact List.mem_append_right _ (List.mem_singleton_self _)
  · have hjob := (Service.get?_enter (c.service e.workplace) (e.job {}) e.path).trans (if_pos rfl)
    rw [← hservice] at hjob
    exact hjob

/-- A load is accepted when the branch is shown and there are no pages of its files, and
    nothing disturbs it then. So it comes to an end, and this is the first of its path from
    then on: the job has succeeded, it has counted and processed all files of the branch and
    loaded all their bytes. As long as the page files are left as they are then, a page of a
    file is read under the id of the file if it starts in front of the end of the file, and
    there are no other pages. -/
theorem load_then_read (hf : e.Feasible) (hx : x.service = { limit })
    (before : List (Event Installation)) {c' : Chronicle Installation}
    (hc : c = run e.workplace { state := x } before)
    (hc' : c' = c.after e.workplace (.load e.path e.options))
    (hreply : c.reply e.workplace e.path e.options = .ok (Service.submittedText e.path))
    (hshows : e.files.Shows c.state.disk e.top) (hholds : e.Holds (fun _ => []) c.state.disk)
    (hn : e.Undisturbed c' next) :
    ∃ m others, (c'.upTo e.workplace next (m + 1)).ended =
        c.ended ++ others ++ [(e.path, .succeeded)] ∧ e.path ∉ others.map (·.1) ∧
      ((c'.upTo e.workplace next m).service e.workplace).jobs.get? e.path =
        some (e.job e.total) ∧
      (0 < limit → ((c'.upTo e.workplace next (m + 1)).service e.workplace).jobs.get? e.path =
        some { e.job e.total with state := .succeeded }) ∧
      ∀ s : Installation,
        (∀ kept, e.Holds kept (c'.upTo e.workplace next (m + 1)).state.disk →
          e.Holds kept s.disk) →
        ∀ file ∈ e.top.files, ∀ (k : Nat) t, AsksWhole t ⟨e.idOf file, k⟩ → ∀ files request,
          if k * e.pages.pageSize < file.content.length then
            ∃ response, ((ofLocal files e.pages).read request t s).result = .ok response ∧
              response.status = 200 ∧
              response.content.bytes = pageOf file.content e.pages.pageSize.toNat k
          else FailsWith 404 ((ofLocal files e.pages).read request t s).result := by
  subst hc hc'
  obtain ⟨hwaits, hstage⟩ := after_load hf hreply hshows hholds
  -- The load comes to its end with all pages kept, and they are read back then.
  obtain ⟨m, others, hended, hothers, hlast, hjob, kept, hkept, hcontent⟩ :=
    hn.exists_end hf (orderly_after e.apart (e.orderly_start hx before) _).1 hwaits hstage
  refine ⟨m, others, hended, hothers, hlast, hjob, ?_⟩
  intro s hs file hfile k t hasks files request
  have hread := (hs kept hkept).read_page hf hfile (hcontent file hfile) hasks files request
  split
  · next hlt =>
    rw [if_pos hlt] at hread
    exact ⟨_, hread, rfl, rfl⟩
  · next hbehind =>
    rwa [if_neg hbehind] at hread

/-! ### A load on its own -/

/-- The accepted loads are the same while the work gets on. -/
theorem accepted_upTo_work (w : Workplace Installation) (c : Chronicle Installation) (k : Nat) :
    (c.upTo w (fun _ => .work) k).accepted = c.accepted := by
  induction k with
  | zero => rfl
  | succ k ih => rw [upTo_succ, ← ih]; rfl

/-- Nothing disturbs a load when no other one was accepted and only the work gets on. -/
theorem undisturbed_alone
    (ho : (c.service e.workplace).Orderly limit c.accepted c.begun c.ended)
    (halone : ∀ p ∈ c.accepted, p = e.path) : e.Undisturbed c fun _ => .work := by
  have hown : ∀ k, ((c.upTo e.workplace (fun _ => .work) k).service e.workplace).current = none ∨
      ((c.upTo e.workplace (fun _ => .work) k).service e.workplace).Runs e.path := by
    intro k
    have hok := orderly_upTo e.apart ho (fun _ => .work) k
    rcases hcurrent : ((c.upTo e.workplace (fun _ => .work) k).service e.workplace).current with
      _ | work
    · exact .inl rfl
    -- Only what was accepted can be at work.
    have haccepted := hok.accepted_eq
    rw [accepted_upTo_work, hok.begun_eq, hcurrent] at haccepted
    exact .inr ⟨work, hcurrent, halone _ (haccepted ▸ by simp)⟩
  refine ⟨fun _ _ hload => (by cases hload), fun k hruns => ?_,
    fun k => ⟨k, Nat.le_refl k, rfl, hown k⟩⟩
  have hnone := (hown k).resolve_right (hruns rfl)
  obtain ⟨service, hstate⟩ := e.apart.step_of_current_none hnone
  have hafter : (c.upTo e.workplace (fun _ => .work) (k + 1)).state =
      e.workplace.service.set service (c.upTo e.workplace (fun _ => .work) k).state := by
    rw [upTo_succ]
    exact hstate
  rw [hafter]
  exact .refl e _

/-- A directory with a file in it, and with an empty one in a directory of it. -/
def smallTree : FileTree :=
  .directory 0 [("a", .file "abcde" 0), ("e", .directory 0 [("b", .file [] 0)])]

/-- It is loaded into pages of four bytes. -/
def smallErrand : Errand where
  root := "/files"
  pages := ⟨"/pages", 4⟩
  path := "/d"
  options := {}
  top := ⟨"/d", ["files", "d"], smallTree⟩
  store := ["pages"]

/-- A disk where it stands, with a directory for the pages. -/
def smallDisk : Disk where
  entries := .ofList [(["files"], .directory 0), (["files", "d"], .directory 0),
    (["files", "d", "a"], .file "abcde" 0), (["files", "d", "e"], .directory 0),
    (["files", "d", "e", "b"], .file [] 0), (["pages"], .directory 0)]

theorem feasible_smallErrand : smallErrand.Feasible where
  normalize_eq := rfl
  submits := rfl
  loads_all := rfl
  loads_bytes := rfl
  loads_again := rfl
  pageSize_pos := by decide
  pageSize_le := by decide
  ends := by decide +kernel
  distinct := by decide +kernel
  apart := by decide +kernel
  fits := by decide +kernel

theorem shows_smallDisk : smallErrand.files.Shows smallDisk smallErrand.top where
  root_ne := by decide +kernel
  isCanonical := LocalFiles.isCanonical_of_normalize feasible_smallErrand.normalize_eq
  zero_not_mem := by decide +kernel
  find_eq := rfl
  on := by
    refine .directory rfl rfl (by decide +kernel) (List.forall_mem_cons.2 ⟨.file rfl,
      List.forall_mem_singleton.2 (.directory rfl rfl (by decide +kernel)
        (List.forall_mem_singleton.2 (.file rfl)))⟩)
  short := by
    intro c hc
    rcases hc.eq_or_child with rfl | ⟨b, hb, hc⟩
    · decide +kernel
    rcases List.mem_cons.1 hb with rfl | hb
    · rcases hc.eq_or_child with rfl | ⟨b, hb, -⟩
      · decide +kernel
      · cases hb
    obtain rfl := List.mem_singleton.1 hb
    rcases hc.eq_or_child with rfl | ⟨b, hb, hc⟩
    · decide +kernel
    obtain rfl := List.mem_singleton.1 hb
    rcases hc.eq_or_child with rfl | ⟨b, hb, -⟩
    · decide +kernel
    · cases hb

theorem holds_smallDisk : smallErrand.Holds (fun _ => []) smallDisk :=
  holds_of_emptyAt ⟨⟨by decide +kernel, rfl, ⟨0, rfl⟩, fun name target h => by cases h⟩,
    fun _ => rfl⟩

/-- The target of the second page of the file. -/
def secondPage : Http.Target where
  mapping := "file"
  segments := [smallErrand.idOf ⟨"/d/a", "abcde", 0⟩, "page", "1"]

/-- It is loaded, and then the byte in its second page is read. -/
theorem load_then_read_small : ∃ m, ∃ c : Chronicle Installation,
    c = (run smallErrand.workplace { state := { disk := smallDisk } } [.load "/d" {}]).upTo
      smallErrand.workplace (fun _ => .work) m ∧
    (ascii "/d", JobState.succeeded) ∈ c.ended ∧
    ∃ response, ((ofLocal smallErrand.workplace.files smallErrand.pages).read {} secondPage
      c.state).result = .ok response ∧ response.status = 200 ∧ response.content.bytes = "e" := by
  let start : Chronicle Installation := { state := { disk := smallDisk } }
  have hfresh : start.state.service = { limit := 128 } := rfl
  have halone : ∀ p ∈ (start.after smallErrand.workplace (.load smallErrand.path {})).accepted,
      p = smallErrand.path := List.forall_mem_singleton.2 rfl
  obtain ⟨m, others, hended, -, -, -, hread⟩ := load_then_read feasible_smallErrand hfresh []
    rfl rfl rfl shows_smallDisk holds_smallDisk (undisturbed_alone
      (orderly_after smallErrand.apart (smallErrand.orderly_start hfresh []) _).1 halone)
  have hasks : AsksWhole secondPage ⟨smallErrand.idOf ⟨"/d/a", "abcde", 0⟩, 1⟩ :=
    ⟨⟨"1", [], rfl, (readNumber_eq_ok_iff "page index").1 (by decide +kernel)⟩, by decide, rfl, rfl⟩
  obtain ⟨response, hresponse, hstatus, hbytes⟩ := hread _ (fun _ => id) ⟨"/d/a", "abcde", 0⟩
    (by decide +kernel) 1 secondPage hasks smallErrand.workplace.files {}
  have hlast : ∀ {before ended : List (Bytes × JobState)},
      ended = before ++ others ++ [(smallErrand.path, .succeeded)] →
        (ascii "/d", JobState.succeeded) ∈ ended := by
    rintro before _ rfl
    exact List.mem_append_right _ (List.mem_singleton_self _)
  exact ⟨m + 1, _, rfl, hlast hended, response, hresponse, hstatus,
    hbytes.trans (by decide +kernel)⟩

/-! ### Paths that are too long for the disk -/

/-- A root that is as long as paths of the disk can be, but for a few bytes. -/
def longRoot : Bytes := (List.replicate 2040 (ascii "/.")).flatten ++ ascii "/files"

/-- The directory is found below this root, but the path of the file in it is too long. -/
def longErrand : Errand where
  root := longRoot
  pages := ⟨"/pages", 4⟩
  path := "/d"
  options := {}
  top := ⟨"/d", ["files", "d"], .directory 0 [("0123456789", .file "x" 0)]⟩
  store := ["pages"]

/-- A disk where it stands, with a directory for the pages. -/
def longDisk : Disk where
  entries := .ofList [(["files"], .directory 0), (["files", "d"], .directory 0),
    (["files", "d", "0123456789"], .file "x" 0), (["pages"], .directory 0)]

theorem feasible_longErrand : longErrand.Feasible where
  normalize_eq := rfl
  submits := rfl
  loads_all := rfl
  loads_bytes := rfl
  loads_again := rfl
  pageSize_pos := by decide
  pageSize_le := by decide
  ends := by decide +kernel
  distinct := by decide +kernel
  apart := by decide +kernel
  fits := by decide +kernel

theorem stands_longDisk : longErrand.files.Stands longDisk longErrand.top where
  root_ne := by decide +kernel
  isCanonical := LocalFiles.isCanonical_of_normalize feasible_longErrand.normalize_eq
  zero_not_mem := by decide +kernel
  find_eq := by decide +kernel
  on := .directory rfl rfl (by decide +kernel) (List.forall_mem_singleton.2 (.file rfl))

theorem holds_longDisk : longErrand.Holds (fun _ => []) longDisk :=
  holds_of_emptyAt ⟨⟨by decide +kernel, rfl, ⟨0, rfl⟩, fun name target h => by cases h⟩,
    fun _ => rfl⟩

/-- How runs ended, and how many files the job of the path has counted. -/
def counted (w : Workplace Installation) (path : Bytes) (c : Chronicle Installation) :
    List (Bytes × JobState) × Option Int :=
  (c.ended, ((c.service w).jobs.get? path).map (·.tally.filesTotal))

/-- Not all files of a branch are loaded by a load that succeeds: those with paths that are too
    long for the disk are left out as their directory is listed. -/
theorem not_all_loaded :
    ¬ ∀ (e : Errand) (x : Installation) (n : Nat) (c : Chronicle Installation),
      c = run e.workplace { state := x } (.load e.path e.options :: List.replicate n .work) →
      e.Feasible → x.service = {} → e.files.Stands x.disk e.top → e.Holds (fun _ => []) x.disk →
      c.ended = [(e.path, .succeeded)] →
        (c.service e.workplace).jobs.get? e.path =
          some { e.job e.total with state := .succeeded } := by
  intro hall
  have hcounted : counted longErrand.workplace longErrand.path (run longErrand.workplace
      { state := { disk := longDisk } } (.load longErrand.path longErrand.options ::
        List.replicate 9 .work)) = ([(ascii "/d", .succeeded)], some 0) := by decide +kernel
  generalize hc : run longErrand.workplace _ _ = c at hcounted
  obtain ⟨hended, htotal⟩ := Prod.mk.inj hcounted
  have hjob := hall longErrand { disk := longDisk } 9 c hc.symm feasible_longErrand rfl
    stands_longDisk holds_longDisk hended
  rw [hjob] at htotal
  exact absurd htotal (by decide)

end PageServer.Load.Errand
