import Mathlib.Data.List.Sort
import PageServer.Proofs.Act
import PageServer.Proofs.Files.Disk

/-!
# The order of listings

A directory is read in an order of the disk's own (`ReadOrder`), and what was read is sorted
by the names (`FileStatus.sort`). As no name is there twice and each entry has the name that it
was read under, only one list comes of this, whatever the order was
(`LocalFiles.value_directoryEntries`).
-/

namespace PageServer

/-! ### Sorting -/

namespace FileStatus

variable {l l' : List FileStatus}

theorem place_eq_orderedInsert (s : FileStatus) (l : List FileStatus) :
    s.place l = l.orderedInsert (fun a b => a.name ≤ b.name) s := by
  induction l with
  | nil => rfl
  | cons t rest ih => rw [place, ih, List.orderedInsert_cons]

theorem sort_eq_insertionSort (l : List FileStatus) :
    sort l = l.insertionSort fun a b => a.name ≤ b.name := by
  induction l with
  | nil => rfl
  | cons s rest ih => rw [sort, ih, place_eq_orderedInsert, List.insertionSort_cons]

theorem sort_perm (l : List FileStatus) : (sort l).Perm l := by
  rw [sort_eq_insertionSort]
  exact List.perm_insertionSort _ l

theorem pairwise_sort (l : List FileStatus) : (sort l).Pairwise fun a b => a.name ≤ b.name := by
  rw [sort_eq_insertionSort]
  exact List.pairwise_insertionSort _ l

/-- Statuses with different names can be sorted in one way only. -/
theorem sort_eq_of_perm (hperm : l.Perm l') (h : (l'.map (·.name)).Pairwise (· < ·)) :
    sort l = l' := by
  have hincreases : l'.Pairwise fun a b => a.name < b.name := List.pairwise_map.1 h
  have hnames : (l'.map (·.name)).Nodup :=
    h.imp fun hlt heq => absurd (heq ▸ hlt) (List.lt_irrefl _)
  have hsorted := (sort_perm l).trans hperm
  refine hsorted.eq_of_pairwise (fun a b ha hb hab hba => ?_) (pairwise_sort l)
    (hincreases.imp List.le_of_lt)
  exact List.inj_on_of_nodup_map hnames (hsorted.mem_iff.1 ha) hb (List.le_antisymm hab hba)

end FileStatus

/-! ### Names in a directory -/

namespace Disk

variable {d : Disk}

theorem nameIn?_eq_some {directory place : DiskPlace} {name : Bytes}
    (h : nameIn? directory place = some name) : place = directory ++ [name] := by
  rw [nameIn?] at h
  split at h
  · next hin =>
    obtain ⟨hlength, hprefix⟩ := hin
    obtain ⟨rest, rfl⟩ := List.isPrefixOf_iff_prefix.1 hprefix
    rw [List.length_append] at hlength
    obtain ⟨last, rfl⟩ := List.length_eq_one_iff.1 (Nat.add_left_cancel hlength)
    rw [List.getLast?_append_of_ne_nil _ (List.cons_ne_nil _ _)] at h
    cases h
    rfl
  · cases h

/-- Of two entries of a directory, that with the smaller name comes first. -/
theorem compare_concat (directory : DiskPlace) (a b : Bytes) :
    compare (directory ++ [a]) (directory ++ [b]) = compare a b := by
  induction directory with
  | nil =>
    rw [List.nil_append, List.nil_append, List.compare_cons_cons]
    cases compare a b <;> rfl
  | cons s rest ih =>
    have hsame : compare s s = .eq := Std.ReflCmp.compare_self
    rw [List.cons_append, List.cons_append, List.compare_cons_cons, hsame, ih]
    rfl

/-- The names in a directory increase. -/
theorem pairwise_names (d : Disk) (directory : DiskPlace) :
    (d.names directory).Pairwise (· < ·) := by
  have hkeys : d.entries.keys.Pairwise fun a b => compare a b = .lt :=
    List.pairwise_map.2 d.entries.sorted
  refine List.Pairwise.filterMap (nameIn? directory) (fun p q hlt a ha b hb => ?_) hkeys
  rw [nameIn?_eq_some ha, nameIn?_eq_some hb, compare_concat] at hlt
  exact Bytes.compare_eq_lt_iff.1 hlt

/-- No name is twice in a directory. -/
theorem nodup_names (d : Disk) (directory : DiskPlace) : (d.names directory).Nodup :=
  (d.pairwise_names directory).imp fun hlt heq => absurd (heq ▸ hlt) (List.lt_irrefl _)

end Disk

/-! ### Entries of a directory -/

namespace LocalFiles

variable {d : Disk} {logical : Bytes} {e : FileStatus}

@[simp]
theorem path_statusOf (logical disk : Bytes) (entry : DiskEntry) :
    (statusOf logical disk entry).path = logical := by
  cases entry <;> rfl

@[simp]
theorem backing_statusOf (logical disk : Bytes) (entry : DiskEntry) :
    (statusOf logical disk entry).backing = disk := by
  cases entry <;> rfl

@[simp]
theorem name_statusOf (logical disk : Bytes) (entry : DiskEntry) :
    (statusOf logical disk entry).name = logical.baseName := by
  cases entry <;> rfl

/-- The last name of the path of an entry is its name in the directory. -/
theorem baseName_child {name : Bytes} (hslash : Byte.slash ∉ name) (directory : Bytes) :
    (child directory name).baseName = name := by
  have hname : ∀ b ∈ name.reverse, (b != Byte.slash) = true := by
    intro b hb
    refine bne_iff_ne.2 ?_
    rintro rfl
    exact hslash (List.mem_reverse.1 hb)
  rw [child, Bytes.baseName, List.reverse_append, List.reverse_cons, List.append_assoc,
    List.takeWhile_append_of_pos hname, List.singleton_append,
    List.takeWhile_cons_of_neg (by simp), List.append_nil, List.reverse_reverse]

theorem exists_of_childStatus {disk name : Bytes}
    (h : (childStatus d logical disk name).value = some e) :
    ∃ entry, e = statusOf (child logical name) (child disk name) entry := by
  rw [childStatus] at h
  split at h
  · cases h
  · split at h <;> cases h
    exact ⟨_, rfl⟩
  · cases h
    exact ⟨_, rfl⟩

/-- The status of the entries of a directory, one after the other. -/
theorem value_childStatuses (d : Disk) (logical disk : Bytes) (names : List Bytes) :
    (childStatuses d logical disk names).value =
      names.filterMap fun name => (childStatus d logical disk name).value := by
  induction names with
  | nil => rfl
  | cons name rest ih =>
    rw [childStatuses, Reported.value_bind, Reported.value_bind, Reported.value_pure, ih,
      List.filterMap_cons]
    cases (childStatus d logical disk name).value <;> rfl

/-- They are listed in the order of the names, if no name is a path. -/
theorem value_directoryEntries {place : DiskPlace} (h : ∀ name ∈ d.names place, Byte.slash ∉ name)
    (logical disk : Bytes) :
    (directoryEntries d logical disk place).value =
      (d.names place).filterMap fun name => (childStatus d logical disk name).value := by
  rw [directoryEntries, Reported.value_bind, Reported.value_pure, value_childStatuses]
  refine FileStatus.sort_eq_of_perm ((d.readOrder.perm place _).filterMap _) (List.pairwise_map.2 ?_)
  refine List.Pairwise.filterMap _ (fun a b hlt e he e' he' => ?_)
    (List.Pairwise.and_mem.1 (d.pairwise_names place))
  obtain ⟨ha, hb, hlt⟩ := hlt
  -- An entry has the name that it was looked at for.
  obtain ⟨entry, rfl⟩ := exists_of_childStatus he
  obtain ⟨entry', rfl⟩ := exists_of_childStatus he'
  rwa [name_statusOf, name_statusOf, baseName_child (h a ha), baseName_child (h b hb)]

end LocalFiles

end PageServer
