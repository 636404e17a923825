import PageServer.Proofs.Load.Batches
import PageServer.Proofs.Load.Copy
import PageServer.Proofs.Pages.Stored

/-!
# Loads that are made again

A load that noted no failure has stored every file that it found (`Scene.loadEach_stores`): its
pages were read and written one behind the other, and as the files have ids of their own, none
was written over afterwards. When it is made again, the pages are read as before and written
over themselves, so that nothing is changed (`Scene.loadEach_again`). If files that are there
already are to be skipped, those with a first page are.
-/

namespace PageServer.Load

open Program

variable {f : LocalFiles} {p : LocalPages} {α : Type} {s s' : Scene} {o : LoadOptions}
  {top : Branch} {store place : DiskPlace} {x : FoundFile} {e : FileStatus}
  {files : List FileStatus} {ids : List Bytes} {size i n : Nat} {loaded : Int}

namespace Scene

open Errand (pageOf length_pageOf pageOf_eq_take take_append_pageOf)

/-! ### Calls in a scene -/

/-- The program goes on with the reply to its call. -/
theorem keeps_reply {c : Call} {g : c.Reply → Program α} {Q : Except Failure α → Scene → Prop}
    {v : c.Reply} (hreply : reply f p c s = .ok v)
    (h : (g v).Keeps (Moves f p) (fun _ => True) (s.after f p c) Q) :
    (ofCall c >>= g).Keeps (Moves f p) (fun _ => True) s Q := by
  refine keeps_bind (keeps_call ?_)
  rintro r s' ⟨hr, rfl⟩
  obtain rfl : r = .ok v := hr.trans hreply
  exact ⟨trivial, h⟩

/-- The program is over with a call that fails. -/
theorem keeps_refused {c : Call} {g : c.Reply → Program α} {Q : Except Failure α → Scene → Prop}
    {e : Failure} (hreply : reply f p c s = .error e) (h : Q (.error e) (s.after f p c)) :
    (ofCall c >>= g).Keeps (Moves f p) (fun _ => True) s Q := by
  refine keeps_bind (keeps_call ?_)
  rintro r s' ⟨hr, rfl⟩
  obtain rfl : r = .error e := hr.trans hreply
  exact ⟨trivial, h⟩

/-- The call leaves the scene as it is. -/
theorem keeps_look {c : Call} {g : c.Reply → Program α} {Q : Except Failure α → Scene → Prop}
    {v : c.Reply} (hreply : reply f p c s = .ok v) (hquiet : c.isQuiet)
    (h : (g v).Keeps (Moves f p) (fun _ => True) s Q) :
    (ofCall c >>= g).Keeps (Moves f p) (fun _ => True) s Q := by
  refine keeps_reply hreply ?_
  rwa [after_of_quiet hquiet]

theorem reply_write (f : LocalFiles) (p : LocalPages) (id : Bytes) (index : Int) (data : Bytes)
    (s : Scene) :
    reply f p (.writePage id index data) s = (p.write id index data s.disk).result := rfl

/-- A page that is not written is declined, or it is a failure. -/
theorem keeps_declined {id data : Bytes} {index : Int} {g : Bool → Program α}
    {Q : Except Failure α → Scene → Prop}
    (hnot : (p.write id index data s.disk).result ≠ .ok true) (hfail : ∀ e s', Q (.error e) s')
    (h : (g false).Keeps (Moves f p) (fun _ => True) (s.after f p (.writePage id index data)) Q) :
    (ofCall (.writePage id index data) >>= g).Keeps (Moves f p) (fun _ => True) s Q := by
  have hreply := reply_write f p id index data s
  rcases hresult : (p.write id index data s.disk).result with e | _ | _
  · exact keeps_refused (hreply.trans hresult) (hfail e _)
  · exact keeps_reply (hreply.trans hresult) h
  · exact absurd hresult hnot

/-- A failure that is noted is among those of the tally. -/
theorem keeps_noteFailure (path reason : Bytes) :
    (Job.noteFailure path reason).Keeps (Moves f p) (fun _ => True) s
      fun _ s' => s'.tally.failures ≠ [] := by
  rw [Job.noteFailure]
  refine keeps_look rfl rfl (keeps_call ?_)
  rintro r s' ⟨-, rfl⟩
  exact ⟨trivial, List.append_ne_nil_of_right_ne_nil _ (List.cons_ne_nil _ _)⟩

/-- What loading files with such ids leaves as it is: the failures that were noted stay, the tree
    stands, and so does what is stored under other ids. -/
structure Spares (f : LocalFiles) (p : LocalPages) (top : Branch) (store : DiskPlace)
    (ids : List Bytes) (s s' : Scene) : Prop where
  failures : s.tally.failures <+: s'.tally.failures
  grounds : Grounds f p top store s'.disk
  stored : ∀ id content, (∀ other ∈ ids, other.toNul ≠ id.toNul) →
    p.Stored s.disk store id content → p.Stored s'.disk store id content

theorem keeps_spares {prog : Program α} (h : prog.Only (Call.Loads ids))
    (hg : Grounds f p top store s.disk) :
    prog.Keeps (Moves f p) (fun _ => True) s fun _ s' => Spares f p top store ids s s' := by
  refine (h.keeps (fun x s₁ s₂ hx hmove hspares => ?_)
    (⟨List.prefix_refl _, hg, fun _ _ _ => id⟩ : Spares f p top store ids s s)).imp
    (fun _ _ => trivial) fun _ _ h => h
  obtain ⟨call, r⟩ := x
  obtain ⟨-, rfl⟩ := hmove
  refine ⟨hspares.failures.trans (Call.Loads.failures_kept hx s₁.tally),
    grounds_after hspares.grounds call, fun id content hother hstored => ?_⟩
  have hbefore := hspares.stored id content hother hstored
  rw [disk_after]
  cases call with
  | writePage other index data =>
    exact hbefore.write_other hspares.grounds.rootedAt (hother other hx) index data
  | _ => exact hbefore

/-! ### Files of the tree -/

section Files

variable (hx : f.Reaches top ⟨x.path, place, .file x.content x.modified⟩)
  (hg : Grounds f p top store s.disk)

include hx hg

theorem reply_openFile : reply f p (.openFile (f.statusFor x).path) s = .ok ⟨x.path, place⟩ :=
  (hg.stands.reaches hx).openFile_eq

theorem reply_status : reply f p (.status (f.statusFor x).path) s = .ok (f.statusFor x) :=
  (hg.stands.reaches hx).status_eq (hg.stands.reaches hx).isCanonical.normalize_eq

/-- A page of the file is read as it is, if it ends within numbers of sixty-four bits. -/
theorem reply_readPage (hpos : 0 < size) (hlt : i * size < x.content.length) :
    reply f p (.read ⟨x.path, place⟩ (i * size) (min size ((f.statusFor x).length - i * size))) s =
      if int64Max < i * size + (pageOf x.content size i).length
        then .error (LocalFiles.callFailed "pread" x.path .badArgument)
        else .ok (some (pageOf x.content size i)) := by
  have hlength : (f.statusFor x).length = x.content.length := rfl
  have hpage := length_pageOf x.content size i
  have hstart : ((i : Int) * size).toNat = i * size := by rw [← Nat.cast_mul, Int.toNat_natCast]
  have hwant : (min (size : Int) (x.content.length - i * size)).toNat =
      (pageOf x.content size i).length := by omega
  have hentry : s.disk.entry? place = some (.file x.content x.modified) :=
    (hg.stands.reaches hx).on.entry?_eq
  show LocalFiles.read s.disk ⟨x.path, place⟩ _ _ = _
  rw [LocalFiles.read, if_neg (by omega), if_neg (by omega), hlength, Disk.read, hstart, hwant,
    hentry]
  split_ifs with hmax hmax' hmax'
  · rfl
  · omega
  · omega
  · obtain ⟨b, bytes, hcons⟩ : ∃ b bytes, pageOf x.content size i = b :: bytes :=
      List.exists_cons_of_length_pos (by omega)
    have htake := pageOf_eq_take x.content size i
    rw [hwant] at htake
    dsimp only
    rw [htake, hcons]

end Files

/-! ### What is stored by a load -/

/-- The file at this status is stored. -/
def IsStored (f : LocalFiles) (p : LocalPages) (top : Branch) (store : DiskPlace) (d : Disk)
    (e : FileStatus) : Prop :=
  ∃ x place, f.Reaches top ⟨x.path, place, .file x.content x.modified⟩ ∧ f.statusFor x = e ∧
    p.Stored d store (fileId e.backing) x.content

section Stores

variable (hsize : 0 < p.pageSize)
  (hx : f.Reaches top ⟨x.path, place, .file x.content x.modified⟩)

include hsize hx

/-- Pages are stored one behind the other, up to the end of the file. -/
theorem loadPages_stores (hsame : p.pageSize = size) (n : Nat)
    (hg : Grounds f p top store s.disk)
    (hs : p.Stored s.disk store (fileId (f.statusFor x).backing) (x.content.take (i * size)))
    (hcount : i + n = Job.pageCount x.content.length size) (loaded : Int) :
    (Job.loadPages size (f.statusFor x) ⟨x.path, place⟩ n i loaded).Keeps (Moves f p)
      (fun _ => True) s fun r s' => ∀ v, r = .ok v → s'.tally.failures = [] →
        p.Stored s'.disk store (fileId (f.statusFor x).backing) x.content := by
  have hpos : (0 : Int) < size := hsame ▸ hsize
  have hmore := lt_pageCount_iff x.content.length hpos i
  rw [← Nat.cast_mul, Nat.cast_lt] at hmore
  -- By induction on the pages that are left: what is stored grows by a page each time.
  induction n generalizing i s loaded with
  | zero =>
    have hend : x.content.length ≤ i * size := Nat.le_of_not_lt (mt hmore.2 (by omega))
    rw [List.take_of_length_le hend] at hs
    exact keeps_pure fun _ _ _ => hs
  | succ n ih =>
    have hlt : i * size < x.content.length := hmore.1 (by omega)
    have hread := reply_readPage (p := p) hx hg (by omega) hlt
    rw [Job.loadPages]
    refine keeps_look (v := false) rfl rfl ?_
    rw [if_neg Bool.false_ne_true]
    split_ifs at hread with hmax
    · exact keeps_refused hread fun _ h => by cases h
    refine keeps_look hread rfl ?_
    dsimp only
    generalize hid : fileId (f.statusFor x).backing = id at hs ih ⊢
    rcases hg.rootedAt.write_cases id i (pageOf x.content size i) with
      ⟨hnot, -⟩ | ⟨hok, base, htaken⟩
    · -- That a page is declined is noted as a failure.
      refine keeps_declined hnot (fun _ _ _ h => by cases h) ?_
      rw [if_neg Bool.false_ne_true]
      refine keeps_bind ((keeps_noteFailure _ _).mono fun r s' hnoted => ?_)
      rcases r with e | v
      · rintro v ⟨⟩
      · exact fun _ _ hclean => absurd hclean hnoted
    · have hbase : base = (x.content.take (i * size)).length := by
        obtain ⟨-, -, -, hbase, -⟩ := (LocalPages.baseFor_eq_ok_iff hsize).1 htaken.baseFor_eq
        rw [hbase, hsame, List.length_take, Nat.min_eq_left (Nat.le_of_lt hlt), Nat.cast_mul]
      have hnext := hs.write hsize htaken hbase
      rw [take_append_pageOf] at hnext
      have hmore' := lt_pageCount_iff x.content.length hpos (i + 1)
      rw [← Nat.cast_mul, Nat.cast_lt] at hmore'
      refine keeps_reply ((reply_write f p id i _ s).trans hok) ?_
      rw [if_pos rfl]
      refine keeps_reply (v := ()) rfl ?_
      refine ih (i := i + 1) (grounds_after (grounds_after hg _) _) ?_ (by omega) _ hmore'
      rwa [disk_after, disk_after]

/-- A file that is copied is stored. -/
theorem copyFile_stores (o : LoadOptions) (hg : Grounds f p top store s.disk) :
    (Job.copyFile o p.pageSize (f.statusFor x)).Keeps (Moves f p) (fun _ => True) s
      fun r s' => ∀ v, r = .ok v → s'.tally.failures = [] → Job.CanHold p.pageSize ∧
        p.Stored s'.disk store (fileId (f.statusFor x).backing) x.content := by
  obtain ⟨size, hsame⟩ := Int.eq_ofNat_of_zero_le (Int.le_of_lt hsize)
  rw [Job.copyFile]
  refine keeps_look (reply_openFile hx hg) rfl ?_
  dsimp only
  split
  · exact keeps_bind (keeps_fail fun _ h => by cases h)
  next hlong =>
  have hcan : Job.CanHold p.pageSize := ⟨by omega, by omega⟩
  have hpages := loadPages_stores (i := 0) hsize hx hsame (Job.pageCount x.content.length size) hg
    (by rw [Nat.zero_mul]; exact LocalPages.stored_nil p _ _ _) (Nat.zero_add _) 0
  rw [hsame]
  refine keeps_bind ((hpages.and (keeps_grounds hg _)).imp (fun _ _ => trivial) ?_)
  rintro (e | _ | loaded) s₁ ⟨hstored, hg₁⟩
  · rintro v ⟨⟩
  · exact fun v _ hclean => ⟨hsame ▸ hcan, hstored none rfl hclean⟩
  · dsimp only [Then]
    split_ifs
    · -- To verify the file nothing is written.
      have honly : (Job.verifyFile (f.statusFor x) loaded).Only (Call.Loads []) :=
        Job.verifyFile_only _ loaded
      refine (keeps_spares honly hg₁).mono ?_
      intro r s₂ hspares v _ hclean
      have hclean₁ := List.prefix_nil.1 (hclean ▸ hspares.failures)
      exact ⟨hsame ▸ hcan, hspares.stored _ _ (List.forall_mem_nil _) (hstored _ rfl hclean₁)⟩
    · exact fun v _ hclean => ⟨hsame ▸ hcan, hstored _ rfl hclean⟩

end Stores

/-- Files with ids of their own that are loaded without a failure are stored in the end. -/
theorem loadEach_stores (hsize : 0 < p.pageSize) (hloads : o.metadataOnly = false)
    (hagain : o.skipExisting = false) (hg : Grounds f p top store s.disk)
    (hfiles : ∀ e ∈ files, ∃ x place,
      f.Reaches top ⟨x.path, place, .file x.content x.modified⟩ ∧ f.statusFor x = e)
    (hdistinct : (files.map (fileId ·.backing)).Nodup) :
    (Job.loadEach o p.pageSize files).Keeps (Moves f p) (fun _ => True) s fun r s' =>
      ∀ v, r = .ok v → s'.tally.failures = [] →
        ∀ e ∈ files, Job.CanHold p.pageSize ∧ IsStored f p top store s'.disk e := by
  induction files generalizing s with
  | nil => exact keeps_pure fun _ _ _ => List.forall_mem_nil _
  | cons file rest ih =>
    obtain ⟨⟨x, place, hx, rfl⟩, hrest⟩ := List.forall_mem_cons.1 hfiles
    rw [List.map_cons, List.nodup_cons] at hdistinct
    rw [Job.loadEach]
    refine keeps_look (v := false) rfl rfl ?_
    rw [if_neg Bool.false_ne_true, Job.loadFile, hloads, hagain, if_neg Bool.false_ne_true,
      if_neg Bool.false_ne_true]
    -- While the others are loaded, failures stay noted, and what is stored of the file stays.
    have hmore := fun {s : Scene} (hg : Grounds f p top store s.disk) =>
      keeps_spares (Job.others_only o p.pageSize rest) hg
    have hother : ∀ other ∈ rest.map (fileId ·.backing),
        other.toNul ≠ (fileId (f.statusFor x).backing).toNul := by
      intro other hmem heq
      obtain ⟨e, -, rfl⟩ := List.mem_map.1 hmem
      rw [toNul_fileId, toNul_fileId] at heq
      exact hdistinct.1 (heq ▸ hmem)
    refine keeps_bind (keeps_recover (((copyFile_stores hsize hx o hg).and
      (keeps_grounds hg _)).imp (fun _ _ => trivial) ?_))
    rintro (e | v) s₁ ⟨hstored, hg₁⟩
    · dsimp only
      split
      · refine ((keeps_noteFailure _ _).and (keeps_grounds hg₁ _)).imp (fun _ _ => trivial) ?_
        rintro (e | v) s₂ ⟨hnoted, hg₂⟩
        · rintro v ⟨⟩
        · refine (hmore hg₂).mono fun r s₃ hspares v _ hclean => ?_
          exact absurd (List.prefix_nil.1 (hclean ▸ hspares.failures)) hnoted
      · exact keeps_fail fun _ h => by cases h
    · refine ((hmore hg₁).and (keeps_reply (v := ()) rfl (ih (grounds_after hg₁ _) hrest
        hdistinct.2))).imp (fun _ _ => trivial) ?_
      rintro r s₂ ⟨hspares, hall⟩ v hv hclean
      obtain ⟨hcan, hstored⟩ := hstored () rfl (List.prefix_nil.1 (hclean ▸ hspares.failures))
      refine List.forall_mem_cons.2 ⟨⟨hcan, x, place, hx, rfl, ?_⟩, hall v hv hclean⟩
      exact hspares.stored _ _ hother hstored

/-! ### What a load leaves as it is when it is made again -/

/-- Neither the disk nor the failures have changed. -/
structure Unchanged (s s' : Scene) : Prop where
  disk_eq : s'.disk = s.disk
  failures_eq : s'.tally.failures = s.tally.failures

theorem Unchanged.refl (s : Scene) : Unchanged s s := ⟨rfl, rfl⟩

theorem Unchanged.trans {s'' : Scene} (h : Unchanged s s') (h' : Unchanged s' s'') :
    Unchanged s s'' := ⟨h'.disk_eq.trans h.disk_eq, h'.failures_eq.trans h.failures_eq⟩

/-- A page that is stored is written once more. -/
theorem keeps_writeSame {id content : Bytes} {g : Bool → Program α}
    {Q : Except Failure α → Scene → Prop} (hsize : 0 < p.pageSize) (hsame : p.pageSize = size)
    (hg : Grounds f p top store s.disk) (hs : p.Stored s.disk store id content)
    (hid : isFileId id) (hlt : i * size < content.length)
    (hnext : ∀ s', Unchanged s s' → (g true).Keeps (Moves f p) (fun _ => True) s' Q) :
    (ofCall (.writePage id i (pageOf content size i)) >>= g).Keeps (Moves f p) (fun _ => True) s
      Q := by
  have hlength := length_pageOf content size i
  have hstart : ((i : Int) * p.pageSize).toNat = i * size := by
    rw [hsame, ← Nat.cast_mul, Int.toNat_natCast]
  have hpart : pageOf content size i <+: content.drop ((i : Int) * p.pageSize).toNat := by
    rw [hstart]
    exact List.take_prefix _ _
  have hne : pageOf content size i ≠ [] := List.ne_nil_of_length_pos (by omega)
  have hwrite := hs.write_same hg.rootedAt hsize hid hne (Int.natCast_nonneg i) (by omega)
    hpart
  refine keeps_reply ((reply_write f p _ i _ s).trans (congrArg Outcome.result hwrite)) ?_
  refine hnext _ ⟨?_, rfl⟩
  rw [disk_after]
  exact congrArg Outcome.state hwrite

section Again

variable (hx : f.Reaches top ⟨x.path, place, .file x.content x.modified⟩)

include hx

/-- Pages that are stored are copied as before. -/
theorem loadPages_again (hsize : 0 < p.pageSize) (hsame : p.pageSize = size) (n : Nat)
    (hg : Grounds f p top store s.disk)
    (hs : p.Stored s.disk store (fileId (f.statusFor x).backing) x.content)
    (hcount : i + n = Job.pageCount x.content.length size)
    (hloaded : loaded = (min (i * size) x.content.length : Nat)) :
    (Job.loadPages size (f.statusFor x) ⟨x.path, place⟩ n i loaded).Keeps (Moves f p)
      (fun _ => True) s fun r s' => r = .ok (some (x.content.length : Int)) ∧ Unchanged s s' := by
  have hpos : (0 : Int) < size := hsame ▸ hsize
  have hmore := lt_pageCount_iff x.content.length hpos i
  rw [← Nat.cast_mul, Nat.cast_lt] at hmore
  induction n generalizing i s loaded with
  | zero =>
    have hend : x.content.length ≤ i * size := Nat.le_of_not_lt (mt hmore.2 (by omega))
    rw [Nat.min_eq_right hend] at hloaded
    exact keeps_pure ⟨by rw [hloaded], .refl s⟩
  | succ n ih =>
    have hlt : i * size < x.content.length := hmore.1 (by omega)
    -- Each page is there already with the same bytes, so writing it changes nothing.
    have hends := hs.length_le
    have hlength := length_pageOf x.content size i
    have hread := reply_readPage (p := p) hx hg (by omega) hlt
    rw [if_neg (by rw [← Nat.cast_mul]; omega)] at hread
    rw [Job.loadPages]
    refine keeps_look (v := false) rfl rfl ?_
    rw [if_neg Bool.false_ne_true]
    refine keeps_look hread rfl ?_
    refine keeps_writeSame hsize hsame hg hs (isFileId_fileId _) hlt fun s' hs' => ?_
    rw [if_pos rfl]
    refine keeps_reply (v := ()) rfl ?_
    rw [← hs'.disk_eq] at hg hs
    have hloaded' : loaded + (pageOf x.content size i).length =
        (min ((i + 1) * size) x.content.length : Nat) := by
      rw [Nat.add_mul]
      omega
    have hmore' := lt_pageCount_iff x.content.length hpos (i + 1)
    rw [← Nat.cast_mul, Nat.cast_lt] at hmore'
    refine (ih (i := i + 1) (grounds_after hg _) (by rwa [disk_after]) (by omega) hloaded'
      hmore').mono ?_
    rintro r s'' ⟨hr, hs''⟩
    exact ⟨hr, hs'.trans ⟨hs''.disk_eq.trans (disk_after _ _ _ _), hs''.failures_eq⟩⟩

/-- A file is copied, and found to be as long as its copy. -/
theorem copyFile_verified (o : LoadOptions) {Q : Scene → Prop} (hcan : Job.CanHold p.pageSize)
    (hg : Grounds f p top store s.disk)
    (hpages : (Job.loadPages p.pageSize (f.statusFor x) ⟨x.path, place⟩
      (Job.pageCount x.content.length p.pageSize) 0 0).Keeps (Moves f p) (fun _ => True) s
        fun r s' => r = .ok (some (x.content.length : Int)) ∧ Q s') :
    (Job.copyFile o p.pageSize (f.statusFor x)).Keeps (Moves f p) (fun _ => True) s
      fun r s' => r = .ok () ∧ Q s' := by
  rw [Job.copyFile]
  refine keeps_look (reply_openFile hx hg) rfl ?_
  dsimp only
  rw [if_neg (not_or.2 ⟨Int.not_lt.2 hcan.1, Int.not_lt.2 hcan.2⟩)]
  refine keeps_bind ((hpages.and (keeps_grounds hg _)).imp (fun _ _ => trivial) ?_)
  rintro r s' ⟨⟨rfl, hQ⟩, hg'⟩
  dsimp only [Then]
  split
  · rw [Job.verifyFile]
    refine keeps_look (reply_status hx hg') rfl ?_
    have hlength : (f.statusFor x).length = x.content.length := rfl
    rw [if_neg (not_not.2 hlength)]
    exact keeps_pure ⟨rfl, hQ⟩
  · exact keeps_pure ⟨rfl, hQ⟩

end Again

/-- The file has a first page. -/
def isCached (p : LocalPages) (d : Disk) (e : FileStatus) : Bool :=
  (p.find d (fileId e.backing) 0).isSome

theorem isCached_of_stored {content : Bytes} (hsize : 0 < p.pageSize)
    (hg : Grounds f p top store s.disk) (hs : p.Stored s.disk store (fileId e.backing) content)
    (hne : content ≠ []) : isCached p s.disk e := by
  rw [isCached, hs.find_zero hg.rootedAt hsize (isFileId_fileId _) hne]
  rfl

theorem reply_isCached (f : LocalFiles) (p : LocalPages) (s : Scene) (e : FileStatus) :
    reply f p (.isCached (fileId e.backing) 0) s = .ok (isCached p s.disk e) := by
  show Except.ok (((p.find s.disk (fileId e.backing) 0).map _).isSome) = _
  rw [Option.isSome_map]
  rfl

/-- Of these files those with a first page are skipped, and nothing is loaded or written. -/
structure Skips (p : LocalPages) (files : List FileStatus) (s s' : Scene) : Prop where
  bytesLoaded_eq : s'.tally.bytesLoaded = s.tally.bytesLoaded
  writes_eq : s'.writes = s.writes
  filesSkipped_eq : s'.tally.filesSkipped =
    s.tally.filesSkipped + (files.filter (isCached p s.disk)).length

theorem Skips.append {s₁ s₂ : Scene} {more : List FileStatus} (h : Skips p files s s₁)
    (hdisk : s₁.disk = s.disk) (hmore : Skips p more s₁ s₂) : Skips p (files ++ more) s s₂ where
  bytesLoaded_eq := hmore.bytesLoaded_eq.trans h.bytesLoaded_eq
  writes_eq := hmore.writes_eq.trans h.writes_eq
  filesSkipped_eq := by
    rw [hmore.filesSkipped_eq, hdisk, h.filesSkipped_eq, List.filter_append, List.length_append]
    omega

/-- A file that is stored is loaded again. -/
theorem loadFile_again (hsize : 0 < p.pageSize) (hg : Grounds f p top store s.disk)
    (hcan : Job.CanHold p.pageSize) (h : IsStored f p top store s.disk e) :
    (Job.loadFile o p.pageSize e).Keeps (Moves f p) (fun _ => True) s fun r s' =>
      r = .ok () ∧ Unchanged s s' ∧
        (o.skipExisting → o.metadataOnly = false → Skips p [e] s s') := by
  obtain ⟨x, place, hx, rfl, hs⟩ := h
  obtain ⟨size, hsame⟩ := Int.eq_ofNat_of_zero_le (Int.le_of_lt hsize)
  rw [Job.loadFile]
  split
  · next hmeta => exact keeps_pure ⟨rfl, .refl s, fun _ hnot => by simp [hmeta] at hnot⟩
  split
  · refine keeps_look (reply_isCached f p s (f.statusFor x)) rfl ?_
    cases hcached : isCached p s.disk (f.statusFor x) with
    | true =>
      rw [if_pos rfl]
      refine keeps_call ?_
      rintro r s' ⟨hr, rfl⟩
      refine ⟨trivial, hr, ⟨disk_after _ _ _ _, rfl⟩, fun _ _ => ⟨rfl, List.append_nil _, ?_⟩⟩
      rw [List.filter_cons_of_pos hcached]
      rfl
    | false =>
      -- Only a file in which there is nothing has no first page.
      have hempty : x.content = [] := by
        by_contra hne
        cases (isCached_of_stored hsize hg hs hne).symm.trans hcached
      have hcount : Job.pageCount x.content.length p.pageSize = 0 := by
        have hmore := lt_pageCount_iff x.content.length hsize 0
        rw [hempty] at hmore ⊢
        exact Nat.eq_zero_of_not_pos (mt hmore.1 (by simp))
      rw [if_neg Bool.false_ne_true]
      refine (copyFile_verified hx o (Q := (· = s)) hcan hg ?_).mono ?_
      · rw [hcount]
        exact keeps_pure ⟨by rw [hempty]; rfl, rfl⟩
      · rintro r s' ⟨hr, rfl⟩
        refine ⟨hr, .refl _, fun _ _ => ⟨rfl, rfl, ?_⟩⟩
        rw [List.filter_cons_of_neg (by simp [hcached])]
        exact (Int.add_zero _).symm
  · next hnot =>
    refine (copyFile_verified hx o (Q := Unchanged s) hcan hg ?_).mono fun r s' h =>
      ⟨h.1, h.2, fun hskip => absurd hskip hnot⟩
    rw [hsame]
    exact loadPages_again hx hsize hsame _ hg hs (Nat.zero_add _) (by simp)

/-- Files that are stored are loaded again, and nothing is changed. -/
theorem loadEach_again (hsize : 0 < p.pageSize) (hg : Grounds f p top store s.disk)
    (hfiles : ∀ e ∈ files, Job.CanHold p.pageSize ∧ IsStored f p top store s.disk e) :
    (Job.loadEach o p.pageSize files).Keeps (Moves f p) (fun _ => True) s fun r s' =>
      r = .ok () ∧ Unchanged s s' ∧
        (o.skipExisting → o.metadataOnly = false → Skips p files s s') := by
  induction files generalizing s with
  | nil => exact keeps_pure ⟨rfl, .refl s, fun _ _ => ⟨rfl, rfl, (Int.add_zero _).symm⟩⟩
  | cons file rest ih =>
    obtain ⟨⟨hcan, hfile⟩, hrest⟩ := List.forall_mem_cons.1 hfiles
    rw [Job.loadEach]
    refine keeps_look (v := false) rfl rfl ?_
    rw [if_neg Bool.false_ne_true]
    refine keeps_bind (keeps_recover (((loadFile_again hsize hg hcan hfile).and
      (keeps_grounds hg _)).imp (fun _ _ => trivial) ?_))
    rintro r s₁ ⟨⟨rfl, hsame₁, hskips₁⟩, hg₁⟩
    refine keeps_reply (v := ()) rfl ?_
    have hdisk : (s₁.after f p (.update fun t =>
        { t with filesProcessed := t.filesProcessed + 1 })).disk = s.disk :=
      (disk_after _ _ _ _).trans hsame₁.disk_eq
    refine (ih (grounds_after hg₁ _) (by rwa [hdisk])).mono ?_
    rintro r s₂ ⟨hr, hsame₂, hskips₂⟩
    refine ⟨hr, hsame₁.trans ⟨hsame₂.disk_eq.trans (disk_after _ _ _ _), hsame₂.failures_eq⟩,
      fun hskip hmeta => ?_⟩
    have hfirst : Skips p [file] s (s₁.after f p (.update fun t =>
        { t with filesProcessed := t.filesProcessed + 1 })) :=
      let h := hskips₁ hskip hmeta
      ⟨h.bytesLoaded_eq, (List.append_nil _).trans h.writes_eq, h.filesSkipped_eq⟩
    exact hfirst.append hdisk (hskips₂ hskip hmeta)

end Scene

/-! ### Runs -/

theorem Service.endState_eq_succeeded_iff {job : Job} :
    Service.endState job = .succeeded ↔ job.cancelled = false ∧ job.tally.failures = [] := by
  rw [Service.endState]
  cases job.cancelled <;> cases job.tally.failures <;> simp

namespace Chronicle

variable {c c₁ c₂ : Chronicle Installation} {next next₁ next₂ : Nat → Event Installation}
  {job job₁ job₂ : Job} {s₁ : Scene} {st st' : Option JobState}

/-- A run ends well if the load of all the files that are found does. -/
theorem exists_succeeds {whole : List FileStatus} {d : Disk} (hrun : c.Undisturbed f p next job)
    (hdisk : c.state.disk = d) (hg : Grounds f p top store d) (hcovers : top.Covers job.path)
    (hfinds : (f.survey d job.path).Finds job whole) (hsome : (f.survey d job.path).root.isSome)
    (hloads : ((Job.loadEach job.options p.pageSize whole).comesTo (Scene.perform f p)
      { disk := d, tally := job.tally }).1.isOk)
    (hclean : ((Job.loadEach job.options p.pageSize whole).comesTo (Scene.perform f p)
      { disk := d, tally := job.tally }).2.tally.failures = []) :
    ∃ s, c.Comes f p next job (some .succeeded) s := by
  subst hdisk
  obtain ⟨st, s, hcomes, hends⟩ := exists_comes hrun hg hcovers hfinds
  cases hends with
  | nothing hnone =>
    rw [hnone] at hsome
    cases hsome
  | loaded _ hbatched =>
    rw [hbatched.comesTo_eq] at hclean
    have hst : Service.endState { job with tally := s.tally } = .succeeded :=
      Service.endState_eq_succeeded_iff.2 ⟨hrun.cancelled_eq, hclean⟩
    exact ⟨s, hst ▸ hcomes⟩
  | brokenOff _ hbroken =>
    rw [hbroken.comesTo_eq] at hloads
    cases hloads

/-- The tree stands when a run is over. -/
theorem Comes.grounds (h : c.Comes f p next job st s) (hrun : c.Undisturbed f p next job)
    (hg : Grounds f p top store c.state.disk) : Grounds f p top store s.disk := by
  obtain ⟨k, -, -, -, -, hscene, -⟩ := h.exists_over
  rw [← hscene.disk_eq]
  exact grounds_upTo hg hrun.alone k

/-- A run that ended well has stored all the files that it selected. -/
theorem Comes.stored (h : c.Comes f p next job (some .succeeded) s)
    (hrun : c.Undisturbed f p next job) (hg : Grounds f p top store c.state.disk)
    (hsize : 0 < p.pageSize) (hcovers : top.Covers job.path)
    (hdistinct : ∀ e e', (f.survey c.state.disk job.path).Selected job e →
      (f.survey c.state.disk job.path).Selected job e' →
        fileId e.backing = fileId e'.backing → e = e')
    (hloads : job.options.metadataOnly = false) (hagain : job.options.skipExisting = false) :
    (f.survey c.state.disk job.path).root.isSome ∧
      ∀ e, (f.survey c.state.disk job.path).Selected job e →
        Job.CanHold p.pageSize ∧ Scene.IsStored f p top store s.disk e := by
  obtain ⟨whole, hfinds⟩ := (hg.stands.finite_survey hcovers).exists_finds job
  have hnamed := hg.stands.named_survey hcovers
  obtain ⟨st, s', hcomes, hends⟩ := exists_comes hrun hg hcovers hfinds
  obtain ⟨hst, rfl⟩ := h.unique hcomes
  cases hends with
  | nothing | brokenOff => cases hst
  | loaded hsome hbatched =>
    have hclean := (Service.endState_eq_succeeded_iff.1 (Option.some.inj hst).symm).2
    have hfiles : ∀ e ∈ whole, ∃ x place,
        f.Reaches top ⟨x.path, place, .file x.content x.modified⟩ ∧ f.statusFor x = e := fun e he =>
      hg.stands.exists_of_selected hcovers ((hfinds.mem_iff hnamed).1 he)
    -- A file is found once, and no two files share an id.
    have hids : (whole.map (fileId ·.backing)).Nodup :=
      (hfinds.nodup hnamed).of_map.map_on fun e he e' he' =>
        hdistinct e e' ((hfinds.mem_iff hnamed).1 he) ((hfinds.mem_iff hnamed).1 he')
    have hstores := Scene.of_keeps (Scene.loadEach_stores
      (s := { disk := c.state.disk, tally := job.tally }) hsize hloads hagain hg hfiles hids)
    rw [hbatched.comesTo_eq] at hstores
    exact ⟨hsome, fun e he => hstores () rfl hclean e ((hfinds.mem_iff hnamed).2 he)⟩

/-- Of the files that are found and stored those with a first page are selected, and all in which
    there is anything have one. -/
theorem cached_found {whole : List FileStatus} {d : Disk} {t : Survey}
    (hfinds : t.Finds job whole) (hnamed : t.Named) (hsize : 0 < p.pageSize)
    (hg : Grounds f p top store d) (hfiles : ∀ e ∈ whole, Scene.IsStored f p top store d e) :
    (whole.filter (Scene.isCached p d)).Nodup ∧
      (∀ e ∈ whole.filter (Scene.isCached p d), t.Selected job e) ∧
        ∀ e, t.Selected job e → 0 < e.length → e ∈ whole.filter (Scene.isCached p d) := by
  refine ⟨(hfinds.nodup hnamed).of_map.filter _,
    fun e he => (hfinds.mem_iff hnamed).1 (List.mem_filter.1 he).1, fun e hselected hlength => ?_⟩
  have he := (hfinds.mem_iff hnamed).2 hselected
  obtain ⟨x, place, -, rfl, hs⟩ := hfiles e he
  have hne : x.content ≠ [] := List.ne_nil_of_length_pos (Int.natCast_pos.1 hlength)
  exact List.mem_filter.2 ⟨he, Scene.isCached_of_stored
    (s := { disk := d, tally := job.tally }) hsize hg hs hne⟩

/-- When a load that ended well is made again, the disk stays as it is, and the load ends well.
    If files that are there already are to be skipped, no bytes are loaded or written, and all
    files are skipped in which there is anything. -/
theorem reload_leaves_disk (hrun₁ : c₁.Undisturbed f p next₁ job₁)
    (hrun₂ : c₂.Undisturbed f p next₂ job₂) (hg : Grounds f p top store c₁.state.disk)
    (hsize : 0 < p.pageSize) (hcovers : top.Covers job₁.path)
    (hdistinct : ∀ e e', (f.survey c₁.state.disk job₁.path).Selected job₁ e →
      (f.survey c₁.state.disk job₁.path).Selected job₁ e' →
        fileId e.backing = fileId e'.backing → e = e')
    (hloads : job₁.options.metadataOnly = false) (hagain : job₁.options.skipExisting = false)
    (hfirst : c₁.Comes f p next₁ job₁ (some .succeeded) s₁) (hdisk : c₂.state.disk = s₁.disk)
    (hsame : job₂.path = job₁.path) (hfilter : job₂.filter = job₁.filter)
    (hfresh : job₂.tally = {}) :
    ∃ s₂, c₂.Comes f p next₂ job₂ (some .succeeded) s₂ ∧ s₂.disk = c₂.state.disk ∧
      (job₂.options.skipExisting → job₂.options.metadataOnly = false →
        s₂.tally.bytesLoaded = 0 ∧ s₂.writes = [] ∧
          ∃ skipped : List FileStatus, skipped.Nodup ∧ s₂.tally.filesSkipped = skipped.length ∧
            (∀ e ∈ skipped, (f.survey c₂.state.disk job₂.path).Selected job₂ e) ∧
            ∀ e, (f.survey c₂.state.disk job₂.path).Selected job₂ e → 0 < e.length →
              e ∈ skipped) := by
  obtain ⟨hsome₁, hstored⟩ := hfirst.stored hrun₁ hg hsize hcovers hdistinct hloads hagain
  have hg₂ : Grounds f p top store c₂.state.disk := hdisk ▸ hfirst.grounds hrun₁ hg
  have hcovers₂ : top.Covers job₂.path := hsame ▸ hcovers
  obtain ⟨whole, hfinds⟩ := (hg₂.stands.finite_survey hcovers₂).exists_finds job₂
  have hnamed := hg₂.stands.named_survey hcovers₂
  -- The second run selects what the first one selected.
  obtain ⟨hroot, hlisting⟩ := hg₂.stands.survey_eq hcovers₂ hg.stands
  rw [← hdisk] at hstored
  rw [hsame] at hroot hlisting
  have hfiles : ∀ e ∈ whole, Job.CanHold p.pageSize ∧
      Scene.IsStored f p top store c₂.state.disk e := by
    intro e he
    have hselected := (hfinds.mem_iff hnamed).1 he
    rw [hsame] at hselected
    exact hstored e (hselected.congr hroot hlisting hfilter.symm)
  obtain ⟨hok, hunchanged, hskips⟩ := Scene.of_keeps (Scene.loadEach_again
    (s := { disk := c₂.state.disk, tally := job₂.tally }) (o := job₂.options) hsize hg₂ hfiles)
  obtain ⟨st, s₂, hcomes, hends⟩ := exists_comes hrun₂ hg₂ hcovers₂ hfinds
  cases hends with
  | nothing hnone =>
    rw [hsame, ← hroot] at hnone
    rw [hnone] at hsome₁
    cases hsome₁
  | loaded _ hbatched =>
    rw [hbatched.comesTo_eq] at hunchanged hskips
    have hclean : s₂.tally.failures = [] := hunchanged.failures_eq.trans (by rw [hfresh])
    have hst : Service.endState { job₂ with tally := s₂.tally } = .succeeded :=
      Service.endState_eq_succeeded_iff.2 ⟨hrun₂.cancelled_eq, hclean⟩
    rw [hst] at hcomes
    refine ⟨s₂, hcomes, hunchanged.disk_eq, fun hskip hmeta => ?_⟩
    have hskips := hskips hskip hmeta
    have hbytes := hskips.bytesLoaded_eq
    have hskipped := hskips.filesSkipped_eq
    rw [hfresh] at hbytes hskipped
    obtain ⟨hnodup, hselected, hall⟩ :=
      cached_found hfinds hnamed hsize hg₂ fun e he => (hfiles e he).2
    exact ⟨hbytes, hskips.writes_eq, _, hnodup, hskipped.trans (Int.zero_add _), hselected, hall⟩
  | brokenOff _ hbroken =>
    rw [hbroken.comesTo_eq] at hok
    cases hok

section Small

/-- The two files below the directory. -/
def smallFiles : List FileStatus :=
  [SmallDisk.files.statusFor ⟨"/d/a", "abcde", 0⟩, SmallDisk.files.statusFor ⟨"/d/e/b", "xy", 0⟩]

theorem finds_small : (SmallDisk.files.survey SmallDisk.disk "/d").Finds
    { path := "/d", options := {} } smallFiles := by
  have hroot : (SmallDisk.files.survey SmallDisk.disk "/d").root =
      some (SmallDisk.files.statusAt ⟨"/d", ["files", "d"], .directory 0 []⟩) := by decide +kernel
  have hfolders : (SmallDisk.files.survey SmallDisk.disk "/d").folders "/d" = ["/d/e"] ∧
      (SmallDisk.files.survey SmallDisk.disk "/d").folders "/d/e" = [] := by decide +kernel
  have hvisits : Visits (SmallDisk.files.survey SmallDisk.disk "/d").folders
      ["/d"] ["/d", "/d/e"] := by
    refine .cons ?_
    rw [hfolders.1]
    refine .cons ?_
    rw [hfolders.2]
    exact .nil
  have hfiles : (["/d", "/d/e"] : List Bytes).flatMap
      ((SmallDisk.files.survey SmallDisk.disk "/d").selectedIn { path := "/d", options := {} }) =
        smallFiles := by decide +kernel
  exact hfiles ▸ .folder hroot rfl hvisits

/-- They are loaded. -/
theorem comes_small : ∃ s, (SmallDisk.begun "/d" {}).Comes SmallDisk.files SmallDisk.pages
    (fun _ => .work) { path := "/d", options := {} } (some .succeeded) s :=
  exists_succeeds (undisturbed_beginning SmallDisk.disk "/d" {} ⟨rfl, rfl⟩ rfl) rfl
    SmallDisk.grounds SmallDisk.covers_directory finds_small (by decide +kernel)
    (by decide +kernel) (by decide +kernel)

/-- Loaded again, they are skipped. -/
theorem reload_leaves_disk_small : ∃ s₁ s₂,
    (SmallDisk.begun "/d" {}).Comes SmallDisk.files SmallDisk.pages (fun _ => .work)
      { path := "/d", options := {} } (some .succeeded) s₁ ∧
    (beginning SmallDisk.files SmallDisk.pages s₁.disk "/d" { skipExisting := true }).Comes
      SmallDisk.files SmallDisk.pages (fun _ => .work)
      { path := "/d", options := { skipExisting := true } } (some .succeeded) s₂ ∧
    s₂.disk = s₁.disk ∧ s₂.tally.bytesLoaded = 0 ∧ s₂.writes = [] := by
  obtain ⟨s₁, hfirst⟩ := comes_small
  have hnamed := SmallDisk.stands.named_survey SmallDisk.covers_directory
  have hids : (smallFiles.map (fileId ·.backing)).Nodup := by decide +kernel
  have hdistinct : ∀ e e',
      (SmallDisk.files.survey SmallDisk.disk "/d").Selected { path := "/d", options := {} } e →
        (SmallDisk.files.survey SmallDisk.disk "/d").Selected { path := "/d", options := {} } e' →
          fileId e.backing = fileId e'.backing → e = e' := fun e e' he he' =>
    List.inj_on_of_nodup_map hids ((finds_small.mem_iff hnamed).2 he)
      ((finds_small.mem_iff hnamed).2 he')
  have hagain : (beginning SmallDisk.files SmallDisk.pages s₁.disk "/d"
      { skipExisting := true }).Undisturbed SmallDisk.files SmallDisk.pages (fun _ => .work)
      { path := "/d", options := { skipExisting := true } } :=
    undisturbed_beginning s₁.disk "/d" { skipExisting := true } ⟨rfl, rfl⟩ rfl
  obtain ⟨s₂, hsecond, hdisk, hskips⟩ := reload_leaves_disk
    (undisturbed_beginning SmallDisk.disk "/d" {} ⟨rfl, rfl⟩ rfl) hagain SmallDisk.grounds
    (by decide) SmallDisk.covers_directory hdistinct rfl rfl hfirst rfl rfl rfl rfl
  obtain ⟨hbytes, hwrites, -⟩ := hskips rfl rfl
  exact ⟨s₁, s₂, hfirst, hsecond, hdisk, hbytes, hwrites⟩

end Small

end Chronicle

end PageServer.Load
