import PageServer.Proofs.Files.Folders

/-!
# One path for each file

A path has one canonical form, the segments that count with a slash in front of each
(`LocalFiles.normalize_of_not_mem`), and canonical paths are resolved to different texts
(`LocalFiles.resolve_injective`).

The path of a directory on the disk, with the name of an entry behind it, is what the path
below the root with this name behind it is resolved to. So in what a directory lists, each
entry is kept where its path leads (`LocalFiles.Coherent`), and whoever comes back with the
path of an entry finds what is at its backing path. For this no name on the disk may be a path
itself (`Disk.Ordinary`), which is kept when files are made. That entries are listed in the
order of their names is not asked of the disk: they are sorted when they are listed.
-/

namespace PageServer

/-! ### Names on the disk -/

namespace Disk

variable {d d' : Disk} {directory place : DiskPlace} {name : Bytes} {k : Nat} {here : DiskPlace}
  {cs : List Bytes} {slashed : Bool}

/-- No place of the disk has a name that is a path or means a direction. -/
structure Ordinary (d : Disk) : Prop where
  isName : ∀ place ∈ d.entries.keys, ∀ name ∈ place.getLast?, IsName name ∧ Byte.slash ∉ name

theorem Ordinary.isName_of_mem_names (h : d.Ordinary) (hname : name ∈ d.names directory) :
    IsName name ∧ Byte.slash ∉ name := by
  obtain ⟨place, hplace, hin⟩ := List.mem_filterMap.1 hname
  refine h.isName place hplace name ?_
  rw [nameIn?_eq_some hin]
  exact List.getLast?_concat

/-! ### Files that are made -/

theorem Ordinary.put (h : d.Ordinary)
    (hname : ∀ name ∈ place.getLast?, IsName name ∧ Byte.slash ∉ name) (entry : DiskEntry) :
    (d.put place entry).Ordinary where
  isName other hother := by
    obtain ⟨e, he, rfl⟩ := List.mem_map.1 hother
    rcases Table.mem_insert he with hmem | ⟨-, hplace | hkey⟩
    · exact h.isName _ (List.mem_map_of_mem hmem)
    · rwa [hplace]
    · exact h.isName _ hkey

/-- What is missing at the end of a walk is missing under a name. -/
theorem isName_of_walk (hcs : ∀ s ∈ cs, Byte.slash ∉ s)
    (h : d.walk true k here cs = .ok (.absent directory name slashed)) :
    IsName name ∧ Byte.slash ∉ name := by
  replace h := trail_of_walk h
  generalize hspot : Spot.absent directory name slashed = spot at h
  induction h with
  | ended | file => cases hspot
  | stay _ _ ih | up _ ih | down _ _ _ _ ih => exact ih (List.forall_mem_cons.1 hcs).2 hspot
  | link _ _ _ _ ih =>
    refine ih (List.forall_mem_append.2 ⟨?_, (List.forall_mem_cons.1 hcs).2⟩) hspot
    exact Bytes.not_mem_splitOn _ _
  | absent hname =>
    cases hspot
    exact ⟨hname, (List.forall_mem_cons.1 hcs).1⟩

/-- What is missing at the end of a path is missing under a name. -/
theorem isName_of_locate {path : Bytes}
    (h : d.locate true path = .ok (.absent directory name slashed)) :
    IsName name ∧ Byte.slash ∉ name := by
  obtain ⟨-, -, h⟩ := locate_eq_ok_iff.1 h
  exact isName_of_walk (Bytes.not_mem_splitOn _ _) h

/-- Bytes that are written make no places. -/
theorem Ordinary.write (h : d.Ordinary) (place : DiskPlace) (offset : Nat) (data : Bytes) :
    (d.write place offset data).Ordinary := by
  rw [Disk.write]
  split
  · next hentry =>
    split
    · exact h
    · refine h.put (fun name hname => h.isName place ?_ name hname) _
      -- The place has a name, so it is not the root, and the table has it.
      rw [Table.mem_keys_iff]
      cases place with
      | nil => cases hname
      | cons s rest =>
        exact fun hnone => (Option.some_ne_none _) (hentry.symm.trans hnone)
  · exact h

/-- A file that is opened, and made if it is missing. -/
theorem Ordinary.openForWriting {path : Bytes} (h : d.Ordinary)
    (hopen : d.openForWriting path = .ok (place, d')) : d'.Ordinary := by
  rw [Disk.openForWriting] at hopen
  split at hopen <;> try cases hopen
  · exact h
  · next hlocate =>
    split at hopen <;> cases hopen
    refine h.put ?_ _
    rw [List.getLast?_concat]
    rintro _ ⟨⟩
    exact isName_of_locate hlocate

end Disk

namespace LocalFiles

variable {f : LocalFiles} {d : Disk} {path logical logical' : Bytes} {e : FileStatus}

/-! ### Canonical forms -/

/-- A path that is not refused is brought to a slash and the segments that count, joined by
    slashes. -/
theorem normalize_of_not_mem {segments : List Bytes} (h : path.PiecesOf Byte.slash segments)
    (hup : (".." : Bytes) ∉ segments) :
    normalize path = .ok (Byte.slash ::
      Bytes.join [Byte.slash] (segments.filter fun s => s ≠ [] ∧ s ≠ ".")) := by
  obtain rfl := Bytes.piecesOf_iff.1 h
  have hcounts : isSegment = fun s => decide (s ≠ [] ∧ s ≠ ".") := by
    funext s
    exact Bool.eq_iff_iff.2 (by simp [isSegment])
  rw [normalize, if_neg (mt List.contains_iff_mem.1 hup), hcounts]
  generalize (path.splitOn Byte.slash).filter (fun s => decide (s ≠ [] ∧ s ≠ ".")) = kept
  cases kept with
  | nil => rfl
  | cons s rest => exact congrArg Except.ok (slashed_eq_cons (List.cons_ne_nil s rest))

/-- The root of the disk is written as an empty root. -/
theorem root_ofRoot_ne (root : Bytes) : (ofRoot root).root ≠ [Byte.slash] := by
  simp only [ofRoot]
  split
  · exact List.cons_ne_nil _ _ ∘ Eq.symm
  · next hne => exact mt beq_iff_eq.2 hne

/-- Canonical paths are resolved to different paths of the disk. -/
theorem resolve_injective (h : IsCanonical logical) (h' : IsCanonical logical')
    (heq : f.resolve logical = f.resolve logical') : logical = logical' := by
  have hlong : ∀ {path : Bytes}, 1 < path.length →
      f.resolve path ≠ f.resolve [Byte.slash] := by
    intro path hlength heq
    have hlengths := congrArg List.length heq
    rw [resolve_of_length f hlength, resolve_slash, List.length_append] at hlengths
    split at hlengths
    · rw [List.length_singleton] at hlengths
      omega
    · omega
  rcases h.eq_slash_or with rfl | ⟨hlength, -⟩ <;> rcases h'.eq_slash_or with rfl | ⟨hlength', -⟩
  · rfl
  · exact absurd heq.symm (hlong hlength')
  · exact absurd heq (hlong hlength)
  · rw [resolve_of_length f hlength, resolve_of_length f hlength'] at heq
    exact List.append_cancel_left heq

/-! ### Entries that are listed -/

/-- The entry is kept where its path leads: the path is canonical, and resolved to the backing
    path. -/
structure Coherent (f : LocalFiles) (e : FileStatus) : Prop where
  normalize_eq : normalize e.path = .ok e.path
  resolve_eq : f.resolve e.path = e.backing

/-- All calls look the path of the entry up under its backing path. -/
theorem Coherent.looksUp (h : f.Coherent e) : LooksUp f e.path e.path e.backing.toNul := by
  have hlooks := LocalFiles.looksUp f h.normalize_eq
  rwa [h.resolve_eq] at hlooks

/-- Entries that are kept at one place have one path. -/
theorem Coherent.path_eq {e' : FileStatus} (h : f.Coherent e) (h' : f.Coherent e')
    (heq : e.backing = e'.backing) : e.path = e'.path := by
  rw [← h.resolve_eq, ← h'.resolve_eq] at heq
  exact resolve_injective (isCanonical_of_normalize h.normalize_eq)
    (isCanonical_of_normalize h'.normalize_eq) heq

theorem coherent_statusOf (h : IsCanonical logical) (entry : DiskEntry) :
    f.Coherent (statusOf logical (f.resolve logical) entry) where
  normalize_eq := by
    rw [path_statusOf]
    exact h.normalize_eq
  resolve_eq := by rw [path_statusOf, backing_statusOf]

/-- The status of a path is coherent. -/
theorem coherent_of_status (h : f.status d path = .ok e) : f.Coherent e := by
  obtain ⟨logical, hlogical, hlookUp⟩ := bind_eq_ok_iff.1 h
  rw [lookUp] at hlookUp
  split at hlookUp <;> cases hlookUp
  exact coherent_statusOf (isCanonical_of_normalize hlogical) _

/-- A directory lists its entries in the order of their names, and each is kept where its path
    leads. A file lists itself. -/
theorem coherent_of_list (hroot : f.root ≠ [Byte.slash]) (h : d.Ordinary)
    {entries : List FileStatus} (hlist : (f.onDisk.list path d).result = .ok entries) :
    (entries.map (·.name)).Pairwise (· < ·) ∧ ∀ e ∈ entries, f.Coherent e := by
  obtain ⟨r, hr, rfl⟩ : ∃ r, f.list d path = .ok r ∧ r.value = entries := by
    rw [onDisk] at hlist
    dsimp only at hlist
    split at hlist <;> cases hlist
    exact ⟨_, ‹_›, rfl⟩
  obtain ⟨⟨logical, disk⟩, hpaths, hfound⟩ := bind_eq_ok_iff.1 hr
  obtain ⟨_, hlogical, hpair⟩ := bind_eq_ok_iff.1 hpaths
  cases hpair
  have hcanonical := isCanonical_of_normalize hlogical
  dsimp only at hfound
  split at hfound <;> cases hfound
  · next place modified _ =>
    -- An entry has the name that it was looked at for.
    have hentry : ∀ name ∈ d.names place, ∀ e,
        (childStatus d logical (f.resolve logical) name).value = some e →
          e.name = name ∧ f.Coherent e := by
      intro name hname e he
      obtain ⟨hisName, hslash⟩ := h.isName_of_mem_names hname
      obtain ⟨entry, rfl⟩ := exists_of_childStatus he
      rw [← resolve_child hroot hcanonical hisName.1, name_statusOf]
      exact ⟨baseName_child hslash _, coherent_statusOf (hcanonical.child hisName hslash) entry⟩
    rw [value_directoryEntries fun name hname => (h.isName_of_mem_names hname).2]
    refine ⟨List.pairwise_map.2 ?_, ?_⟩
    · refine List.Pairwise.filterMap _ (fun a b hlt e he e' he' => ?_)
        (List.Pairwise.and_mem.1 (d.pairwise_names place))
      obtain ⟨ha, hb, hlt⟩ := hlt
      rwa [(hentry a ha e he).1, (hentry b hb e' he').1]
    · intro e he
      obtain ⟨name, hname, he⟩ := List.mem_filterMap.1 he
      exact (hentry name hname e he).2
  · exact ⟨List.pairwise_singleton _ _,
      List.forall_mem_singleton.2 (coherent_statusOf hcanonical _)⟩

end LocalFiles

end PageServer
