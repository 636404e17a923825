import PageServer.Proofs.Files.Lookup
import PageServer.Proofs.Load.Static
import PageServer.Proofs.Load.Survey
import PageServer.Proofs.Load.Trees

/-!
# Surveys of trees

Where a tree stands below a path of local files, this path and those behind it lead to a branch
of it, or nowhere (`LocalFiles.Stands.survey_root`). What is surveyed from there are the branches
that are reached, and these are the same on all disks on which the tree stands
(`LocalFiles.Stands.survey_eq`). So a load is shown this survey all the time
(`LocalFiles.Stands.shown`).
-/

namespace PageServer

namespace LocalFiles

open Load

/-- What local files show of a path, and of the directories below it. -/
def survey (f : LocalFiles) (d : Disk) (path : Bytes) : Survey where
  root := (f.status d path).toOption
  listing dir := (f.onDisk.list dir d).result.toOption

variable {f : LocalFiles} {d d' : Disk} {top b c : Branch} {path dir : Bytes} {e : FileStatus}

theorem folders_survey (f : LocalFiles) (d : Disk) (path : Bytes) :
    (f.survey d path).folders = f.foldersAt d := by
  funext dir
  rw [Survey.folders, Survey.entriesOf, survey, foldersAt]
  dsimp only
  cases (f.onDisk.list dir d).result <;> rfl

namespace Stands

/-- What the path leads to is reached in the tree. -/
theorem survey_root (h : f.Stands d top) (hcovers : top.Covers path) :
    (f.survey d path).root = none ∨ ∃ b, f.Reaches top b ∧ normalize path = .ok b.path ∧
      (f.survey d path).root = some (f.statusAt b) := by
  rw [survey]
  dsimp only
  rcases hnormal : normalize path with e | logical
  · rw [status, hnormal]
    exact .inl rfl
  have hzero := h.zero_not_mem_of_normalize hnormal hcovers.1
  rcases hfind : d.find true (f.resolve logical) with e | ⟨place, entry⟩
  · rw [(LocalFiles.looksUp f hnormal).status_eq, d.find_toNul, hfind]
    exact .inl rfl
  · obtain ⟨b, hb, rfl⟩ :=
      h.exists_of_find (hcovers.2 _ hnormal) (isCanonical_of_normalize hnormal) hzero hfind
    refine .inr ⟨b, hb, rfl, ?_⟩
    rw [(h.reaches hb).status_eq hnormal]
    rfl

theorem listing_survey (h : f.Stands d b) (hb : b.isFolder) (path : Bytes) :
    (f.survey d path).listing b.path = some ((f.reachable b).map f.statusAt) := by
  show (f.onDisk.list b.path d).result.toOption = _
  rw [(h.list_directory hb).1]
  rfl

theorem entriesOf_survey (h : f.Stands d b) (hb : b.isFolder) (path : Bytes) :
    (f.survey d path).entriesOf b.path = (f.reachable b).map f.statusAt := by
  rw [Survey.entriesOf, h.listing_survey hb]
  rfl

/-- A file is read up to its end. -/
theorem length_le_of_read (h : f.Stands d b) {position length : Int}
    (hread : LocalFiles.read d ⟨b.path, b.place⟩ position length = .ok none)
    (hposition : 0 ≤ position) (hlength : 0 < length) : (f.statusAt b).length ≤ position := by
  obtain ⟨path, place, tree⟩ := b
  cases tree with
  | directory modified children => exact hposition
  | file content modified =>
    have hentry := h.on.entry?_eq
    dsimp only at hentry
    rw [LocalFiles.read, if_neg (by omega), if_neg (by omega), Disk.read, hentry] at hread
    show (content.length : Int) ≤ position
    by_contra hlt
    have hne : (content.drop position.toNat).take length.toNat ≠ [] := by
      rw [← List.length_pos_iff, List.length_take, List.length_drop]
      omega
    obtain ⟨b, bytes, hcons⟩ := List.exists_cons_of_ne_nil hne
    split_ifs at hread
    simp [FileTree.root, hcons] at hread

section Root

variable (h : f.Stands d b) (hroot : (f.survey d path).root = some (f.statusAt b))

include h hroot

/-- The directories of the survey are those that are reached from the branch. -/
theorem exists_of_folder (hdir : (f.survey d path).Folder dir) :
    ∃ c, f.Reaches b c ∧ c.isFolder ∧ c.path = dir := by
  obtain ⟨root, hsome, hfolder, hreaches⟩ := hdir
  obtain rfl := Option.some.inj (hroot.symm.trans hsome)
  rw [isFolder_statusAt] at hfolder
  rw [folders_survey, path_statusAt] at hreaches
  exact h.exists_of_reaches hfolder hreaches

/-- All that is surveyed is reached from the branch. -/
theorem exists_of_below (he : (f.survey d path).Below e) :
    ∃ c, f.Reaches b c ∧ e = f.statusAt c := by
  cases he with
  | root hsome => exact ⟨b, .top, Option.some.inj (hsome.symm.trans hroot)⟩
  | entry hdir he =>
    obtain ⟨c, hc, hfolder, rfl⟩ := h.exists_of_folder hroot hdir
    rw [(h.reaches hc).entriesOf_survey hfolder] at he
    obtain ⟨c', hc', rfl⟩ := List.mem_map.1 he
    exact ⟨c', hc.child hc', rfl⟩

/-- Entries of a tree have names of their own. -/
theorem named_of_root : (f.survey d path).Named := by
  intro dir hdir
  obtain ⟨c, hc, hfolder, rfl⟩ := h.exists_of_folder hroot hdir
  rw [(h.reaches hc).entriesOf_survey hfolder, List.map_map]
  simp only [Function.comp_def, path_statusAt]
  exact (h.reaches hc).named

/-- A tree is finite. -/
theorem finite_of_root : (f.survey d path).Finite := by
  intro root hsome hfolder
  obtain rfl := Option.some.inj (hroot.symm.trans hsome)
  rw [isFolder_statusAt] at hfolder
  rw [folders_survey, path_statusAt]
  exact h.exists_visits hfolder

end Root

variable (h : f.Stands d top) (hcovers : top.Covers path)

include h hcovers

theorem named_survey : (f.survey d path).Named := by
  rcases h.survey_root hcovers with hnone | ⟨b, hb, -, hroot⟩
  · rintro dir ⟨root, hsome, -⟩
    cases hnone.symm.trans hsome
  · exact (h.reaches hb).named_of_root hroot

theorem finite_survey : (f.survey d path).Finite := by
  rcases h.survey_root hcovers with hnone | ⟨b, hb, -, hroot⟩
  · intro root hsome
    cases hnone.symm.trans hsome
  · exact (h.reaches hb).finite_of_root hroot

/-- Files that are selected are files of the tree. -/
theorem exists_of_selected {job : Job} (hselected : (f.survey d path).Selected job e) :
    ∃ x place, f.Reaches top ⟨x.path, place, .file x.content x.modified⟩ ∧ f.statusFor x = e := by
  obtain ⟨hbelow, hfile, -⟩ := hselected
  rcases h.survey_root hcovers with hnone | ⟨b, hb, -, hroot⟩
  · cases hbelow with
    | root hsome => cases hnone.symm.trans hsome
    | entry hdir _ =>
      obtain ⟨root, hsome, -⟩ := hdir
      cases hnone.symm.trans hsome
  · obtain ⟨c, hc, rfl⟩ := (h.reaches hb).exists_of_below hroot hbelow
    rw [isFolder_statusAt] at hfile
    obtain ⟨logical, place, tree⟩ := c
    cases tree with
    | directory modified children => cases hfile
    | file content modified => exact ⟨⟨logical, content, modified⟩, place, hb.trans hc, rfl⟩

/-- Every directory that is surveyed can be listed. -/
theorem gap_survey_iff : (f.survey d path).Gap ↔ (f.survey d path).root = none := by
  refine ⟨fun hgap => ?_, .inl⟩
  rcases hgap with hnone | ⟨dir, hdir, hlisting⟩
  · exact hnone
  rcases h.survey_root hcovers with hnone | ⟨b, hb, -, hroot⟩
  · exact hnone
  · obtain ⟨c, hc, hcfolder, rfl⟩ := (h.reaches hb).exists_of_folder hroot hdir
    rw [((h.reaches hb).reaches hc).listing_survey hcfolder] at hlisting
    cases hlisting

/-- The tree is surveyed alike on all disks on which it stands. -/
theorem survey_eq (h' : f.Stands d' top) :
    (f.survey d' path).root = (f.survey d path).root ∧
      ∀ dir, (f.survey d path).Folder dir →
        (f.survey d' path).listing dir = (f.survey d path).listing dir := by
  have hroots : ∀ {d d' : Disk}, f.Stands d top → f.Stands d' top → ∀ root,
      (f.survey d path).root = some root → (f.survey d' path).root = some root := by
    intro d d' h h' root hroot
    rcases h.survey_root hcovers with hnone | ⟨b, hb, hnormal, hsome⟩
    · cases hnone.symm.trans hroot
    · obtain rfl := Option.some.inj (hsome.symm.trans hroot)
      rw [survey, (h'.reaches hb).status_eq hnormal]
      rfl
  refine ⟨Option.ext fun root => ⟨hroots h' h root, hroots h h' root⟩, fun dir hdir => ?_⟩
  obtain ⟨root, hsome, -⟩ := id hdir
  rcases h.survey_root hcovers with hnone | ⟨b, hb, -, hroot⟩
  · cases hnone.symm.trans hsome
  · obtain ⟨c, hc, hcfolder, rfl⟩ := (h.reaches hb).exists_of_folder hroot hdir
    rw [((h.reaches hb).reaches hc).listing_survey hcfolder,
      ((h'.reaches hb).reaches hc).listing_survey hcfolder]

/-- A load is shown the survey by all disks on which the tree stands. -/
theorem shown (p : LocalPages) {x : Installation} (h' : f.Stands x.disk top) (call : Call) :
    (f.survey d path).Shown path
      (fun q source => ∃ d', f.Stands d' top ∧ f.openFile d' q = .ok source)
      ⟨call, ((Workplace.ofDisk f p).perform path call x).result⟩ := by
  obtain ⟨hroot, hlisting⟩ := h.survey_eq hcovers h'
  refine ⟨sound_ofDisk f p path call x, fun r hr => ?_, fun dir r hr hdir => ?_,
    fun q source hr => ?_, fun e source position length hr he hopened hposition hlength => ?_⟩
  · obtain ⟨rfl, hr⟩ := Exchange.mk.inj hr
    rw [← eq_of_heq hr]
    exact hroot
  · obtain ⟨rfl, hr⟩ := Exchange.mk.inj hr
    rw [← eq_of_heq hr]
    exact hlisting dir hdir
  · obtain ⟨rfl, hr⟩ := Exchange.mk.inj hr
    exact ⟨x.disk, h', eq_of_heq hr⟩
  · obtain ⟨rfl, hr⟩ := Exchange.mk.inj hr
    have hread : LocalFiles.read x.disk source position length = .ok none := eq_of_heq hr
    -- Only below what is found a file can be opened, and there it is the one of the tree.
    rcases h.survey_root hcovers with hnone | ⟨b, hb, -, hsome⟩
    · cases he with
      | root hroot => cases hnone.symm.trans hroot
      | entry hdir _ =>
        obtain ⟨root, hroot, -⟩ := hdir
        cases hnone.symm.trans hroot
    obtain ⟨c, hc, rfl⟩ := (h.reaches hb).exists_of_below hsome he
    obtain ⟨d'', h'', hopen⟩ := hopened
    rw [path_statusAt, ((h''.reaches hb).reaches hc).openFile_eq] at hopen
    obtain rfl := Except.ok.inj hopen
    exact ((h'.reaches hb).reaches hc).length_le_of_read hread hposition hlength

end Stands

end LocalFiles

theorem Load.SmallDisk.covers_directory : SmallDisk.top.Covers "/d" :=
  LocalFiles.covers_of_root rfl rfl (by decide)

theorem Load.DefaultDisk.covers_directory : DefaultDisk.top.Covers "/data" :=
  ⟨by decide, fun _ h => .inl ((Except.ok.inj h).symm.trans (by decide))⟩

end PageServer
