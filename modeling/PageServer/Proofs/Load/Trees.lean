import PageServer.Proofs.Files.Folders
import PageServer.Proofs.Load.Rounds

/-!
# Trees walked in rounds

A tree that stands on the disk is finite, and its entries have names of their own. So a walk
of it comes to an end (`LocalFiles.Stands.exists_visits`), with each directory listed once
(`LocalFiles.Stands.branching`).
-/

namespace PageServer.LocalFiles

open Load

variable {f : LocalFiles} {d : Disk} {b c : Branch} {p : Bytes}

/-- The directories that are listed in a directory. -/
def foldersAt (f : LocalFiles) (d : Disk) (path : Bytes) : List Bytes :=
  match (f.onDisk.list path d).result with
  | .ok entries => foldersOf entries
  | .error _ => []

theorem Stands.foldersAt_eq (h : f.Stands d b) (hc : f.Reaches b c) (hfolder : c.isFolder) :
    f.foldersAt d c.path = (f.folders c).map (·.path) := by
  obtain ⟨entries, hentries, hfolders⟩ := (h.reaches hc).list_folders hfolder
  rw [foldersAt, hentries]
  exact hfolders

/-- The paths that are reached by listing are those of the directories that are reached. -/
theorem Stands.exists_of_reaches (h : f.Stands d b) (hb : b.isFolder)
    (hp : Load.Reaches (f.foldersAt d) b.path p) :
    ∃ c, f.Reaches b c ∧ c.isFolder ∧ c.path = p := by
  induction hp with
  | top => exact ⟨b, .top, hb, rfl⟩
  | child _ hq ih =>
    obtain ⟨c, hc, hfolder, rfl⟩ := ih
    rw [h.foldersAt_eq hc hfolder] at hq
    obtain ⟨c', hc', rfl⟩ := List.mem_map.1 hq
    obtain ⟨hmem, hfolder'⟩ := List.mem_filter.1 hc'
    exact ⟨c', hc.child hmem, hfolder', rfl⟩

/-- The entries that are listed in a directory have names of their own. -/
theorem Stands.named (h : f.Stands d b) :
    Named b.path ((f.reachable b).map (·.path)) := by
  obtain ⟨names, hnodup, hproper, hpaths⟩ := h.child_names
  have hall : Named b.path (b.children.map (·.path)) := by
    rw [hpaths]
    constructor
    · refine hnodup.map_on fun name _ name' _ heq => ?_
      exact (List.cons.inj (List.append_cancel_left heq)).2
    · intro q hq
      obtain ⟨name, hname, rfl⟩ := List.mem_map.1 hq
      exact ⟨name, (hproper name hname).isName.1, (hproper name hname).slash_not_mem, rfl⟩
  exact hall.sublist (List.filter_sublist.map _)

/-- No directory is found in two directories, or twice in one. -/
theorem Stands.branching (h : f.Stands d b) (hb : b.isFolder) :
    Branching (f.foldersAt d) b.path := by
  refine branching_of_named fun p hp => ?_
  obtain ⟨c, hc, hfolder, rfl⟩ := h.exists_of_reaches hb hp
  rw [h.foldersAt_eq hc hfolder]
  exact (h.reaches hc).named.sublist (List.filter_sublist.map _)

/-- There is less below the directories that are listed than below the one they are in. -/
theorem sizeOf_folders_lt (f : LocalFiles) (h : b.isFolder) :
    ((f.folders b).map (sizeOf ·.tree)).sum < sizeOf b.tree := by
  have hsublist : (f.folders b).Sublist b.folders := List.filter_sublist.filter _
  exact Nat.lt_of_le_of_lt ((hsublist.map _).sum_le_sum fun _ _ => Nat.zero_le _)
    (Branch.sizeOf_folders_lt h)

/-- The walk of a tree comes to its end. -/
theorem Stands.exists_visits (h : f.Stands d b) (hb : b.isFolder) :
    ∃ all, Visits (f.foldersAt d) [b.path] all := by
  suffices hall : ∀ size, ∀ pending : List Branch, (pending.map (sizeOf ·.tree)).sum = size →
      (∀ c ∈ pending, f.Reaches b c ∧ c.isFolder) →
      ∃ all, Visits (f.foldersAt d) (pending.map (·.path)) all by
    exact hall _ [b] rfl (List.forall_mem_singleton.2 ⟨.top, hb⟩)
  intro size
  -- By induction on how much is below the directories still to be listed.
  induction size using Nat.strong_induction_on with
  | _ size ih =>
  intro pending hsize hpending
  cases pending with
  | nil => exact ⟨[], .nil⟩
  | cons c rest =>
    obtain ⟨⟨hc, hfolder⟩, hrest⟩ := List.forall_mem_cons.1 hpending
    have hlt := f.sizeOf_folders_lt hfolder
    obtain ⟨more, hmore⟩ := ih ((rest ++ f.folders c).map (sizeOf ·.tree)).sum
      (by rw [← hsize, List.map_append, List.sum_append, List.map_cons, List.sum_cons]; omega)
      (rest ++ f.folders c) rfl
      (List.forall_mem_append.2 ⟨hrest, fun c' hc' =>
        ⟨hc.child (List.mem_filter.1 hc').1, (List.mem_filter.1 hc').2⟩⟩)
    refine ⟨c.path :: more, .cons ?_⟩
    rwa [h.foldersAt_eq hc hfolder, ← List.map_append]

end PageServer.LocalFiles
