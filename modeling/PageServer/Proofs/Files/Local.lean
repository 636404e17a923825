import PageServer.Files.Local
import PageServer.Proofs.Text
import Mathlib.Data.List.DropRight

/-!
# What local files are looked up under

A path is refused for its segments, but the disk is asked with a zero-terminated
text, and of a segment with a NUL byte in it the disk sees a part only. So a path
is seen in two ways: with all its segments when it is checked, and with its
segments up to the first NUL byte (`LocalFiles.toNulSegments`) when it is looked
up.

All calls of the file system look a path up under one text (`LocalFiles.LooksUp`).
This leads below the root by its own words (`LocalFiles.Below`) exactly if no
segment goes up in the part of the path that the disk sees
(`LocalFiles.lookup_below_iff`). For a path without NUL bytes that is what is
checked; `..` and a NUL byte behind it is let through, and leads above the root.
-/

namespace PageServer

/-- A disk is asked with zero-terminated texts. -/
theorem Disk.find_toNul (d : Disk) (followLast : Bool) (path : Bytes) :
    d.find followLast path.toNul = d.find followLast path := by
  simp only [find, locate, Bytes.toNul_toNul]

namespace LocalFiles

/-! ### Segments -/

/-- The segments with a slash in front of each. -/
def slashed (segments : List Bytes) : Bytes := segments.flatMap (Byte.slash :: ·)

theorem slashed_cons (s : Bytes) (rest : List Bytes) :
    slashed (s :: rest) = Byte.slash :: (s ++ slashed rest) := rfl

theorem slashed_eq_cons {segments : List Bytes} (h : segments ≠ []) :
    slashed segments = Byte.slash :: [Byte.slash].intercalate segments := by
  induction segments with
  | nil => exact absurd rfl h
  | cons s rest ih =>
    cases rest with
    | nil => simp [slashed]
    | cons s' rest =>
      rw [slashed_cons, ih (List.cons_ne_nil _ _), List.intercalate_cons_cons]
      simp

/-- Splitting at the slashes takes the slashes out. -/
theorem slashed_splitOn (path : Bytes) :
    slashed (path.splitOn Byte.slash) = Byte.slash :: path := by
  rw [slashed_eq_cons (List.splitOn_ne_nil _ _), List.intercalate_splitOn]

/-- Segments without slashes can be told from the slashes in front of them. -/
theorem slashed_injective {a b : List Bytes} (ha : ∀ s ∈ a, Byte.slash ∉ s)
    (hb : ∀ s ∈ b, Byte.slash ∉ s) (h : slashed a = slashed b) : a = b := by
  cases a with
  | nil =>
    cases b with
    | nil => rfl
    | cons t b => cases h
  | cons s a =>
    cases b with
    | nil => cases h
    | cons t b =>
      rw [slashed_eq_cons (List.cons_ne_nil s a), slashed_eq_cons (List.cons_ne_nil t b)] at h
      have hjoin := (List.cons.inj h).2
      rw [← List.splitOn_intercalate Byte.slash ha (List.cons_ne_nil s a), hjoin,
        List.splitOn_intercalate Byte.slash hb (List.cons_ne_nil t b)]

/-- The part of the segments that a reader of zero-terminated texts sees. -/
def toNulSegments : List Bytes → List Bytes
  | [] => []
  | s :: rest => if 0 ∈ s then [s.toNul] else s :: toNulSegments rest

theorem toNul_slashed (segments : List Bytes) :
    (slashed segments).toNul = slashed (toNulSegments segments) := by
  induction segments with
  | nil => rfl
  | cons s rest ih =>
    rw [slashed_cons, Bytes.toNul_cons (by decide), Bytes.toNul_append, ih, toNulSegments]
    split
    · simp [slashed]
    · rfl

theorem slash_not_mem_toNulSegments {segments : List Bytes} (h : ∀ s ∈ segments, Byte.slash ∉ s) :
    ∀ s ∈ toNulSegments segments, Byte.slash ∉ s := by
  induction segments with
  | nil => exact h
  | cons s rest ih =>
    rw [List.forall_mem_cons] at h
    rw [toNulSegments]
    split
    · rw [List.forall_mem_singleton]
      exact fun hmem => h.1 ((List.takeWhile_sublist _).subset hmem)
    · exact List.forall_mem_cons.2 ⟨h.1, ih h.2⟩

/-- The part of a path that is seen has the segments that are seen. -/
theorem splitOn_toNul (path : Bytes) :
    path.toNul.splitOn Byte.slash = toNulSegments (path.splitOn Byte.slash) := by
  -- With a slash in front, both are what is seen of the whole path.
  refine slashed_injective (Bytes.not_mem_splitOn _ _)
    (slash_not_mem_toNulSegments (Bytes.not_mem_splitOn _ path)) ?_
  rw [slashed_splitOn, ← toNul_slashed, slashed_splitOn, Bytes.toNul_cons (by decide)]

/-- Segments that do not count are seen, or not, together with what is behind
    them. -/
theorem mem_toNulSegments_filter (segments : List Bytes) :
    (".." : Bytes) ∈ toNulSegments (segments.filter isSegment) ↔
      (".." : Bytes) ∈ toNulSegments segments := by
  induction segments with
  | nil => exact Iff.rfl
  | cons s rest ih =>
    by_cases hs : isSegment s
    · rw [List.filter_cons_of_pos hs, toNulSegments, toNulSegments]
      split
      · exact Iff.rfl
      · rw [List.mem_cons, List.mem_cons, ih]
    · have hs' : s = [] ∨ s = "." := by simpa [isSegment, or_iff_not_imp_left] using hs
      rw [List.filter_cons_of_neg hs, ih]
      rcases hs' with rfl | rfl <;> simp [toNulSegments, ascii]

/-! ### Lookups -/

variable {root path logical : Bytes}

theorem mem_of_mem_dropSlashes {b : Byte} (h : b ∈ Disk.dropSlashes path) : b ∈ path :=
  List.mem_reverse.1 ((List.dropWhile_sublist _).subset (List.mem_reverse.1 h))

theorem dropSlashes_dropSlashes (path : Bytes) :
    Disk.dropSlashes (Disk.dropSlashes path) = Disk.dropSlashes path := by
  simp only [Disk.dropSlashes, List.reverse_reverse, List.dropWhile_idempotent]

/-- What is trimmed stays as it is. -/
theorem trimRoot_trimRoot (root : Bytes) : trimRoot (trimRoot root) = trimRoot root := by
  cases htrimmed : Disk.dropSlashes root with
  | nil =>
    cases root with
    | nil => rfl
    | cons b root =>
      have hslash : trimRoot (b :: root) = [Byte.slash] := by
        unfold trimRoot
        rw [htrimmed]
      rw [hslash]
      rfl
  | cons b rest =>
    have hagain : Disk.dropSlashes (b :: rest) = b :: rest := by
      rw [← htrimmed, dropSlashes_dropSlashes]
    have htrim : trimRoot root = b :: rest := by
      unfold trimRoot
      rw [htrimmed]
    rw [htrim]
    unfold trimRoot
    rw [hagain]

theorem zero_not_mem_trimRoot (h : 0 ∉ root) : 0 ∉ trimRoot root := by
  unfold trimRoot
  split
  · decide
  · exact fun hmem => h (mem_of_mem_dropSlashes hmem)

theorem zero_not_mem_ofRoot (h : 0 ∉ root) : 0 ∉ (ofRoot root).root := by
  simp only [ofRoot]
  split
  · exact List.not_mem_nil
  · exact zero_not_mem_trimRoot h

/-- Where canonical segments are looked up. The root of the disk is one slash. -/
theorem resolve_ofSegments (f : LocalFiles) {segments : List Bytes} (h : ∀ s ∈ segments, s ≠ []) :
    f.resolve (ofSegments segments) =
      f.root ++ slashed (if segments = [] ∧ f.root = [] then [[]] else segments) := by
  cases segments with
  | nil =>
    cases hroot : f.root <;> simp [resolve, ofSegments, hroot, slashed]
  | cons s rest =>
    have hne : ofSegments (s :: rest) ≠ [Byte.slash] := by
      simp [ofSegments, h s List.mem_cons_self]
    rw [resolve, if_neg (mt beq_iff_eq.1 hne), if_neg fun hboth => List.cons_ne_nil _ _ hboth.1]
    rfl

/-- The text is the root with segments behind it, none of which goes up. -/
def Below (root text : Bytes) : Prop :=
  ∃ segments, text = root ++ slashed segments ∧ ∀ s ∈ segments, Byte.slash ∉ s ∧ s ≠ ".."

theorem below_iff {segments : List Bytes} (h : ∀ s ∈ segments, Byte.slash ∉ s) :
    Below root (root ++ slashed segments) ↔ (".." : Bytes) ∉ segments := by
  constructor
  · rintro ⟨others, heq, hothers⟩ hmem
    have hsame := slashed_injective h (fun s hs => (hothers s hs).1) (List.append_cancel_left heq)
    exact (hothers _ (hsame ▸ hmem)).2 rfl
  · intro hnot
    exact ⟨segments, rfl, fun s hs => ⟨h s hs, fun hup => hnot (hup ▸ hs)⟩⟩

/-- What is looked up for a path that is not refused leads below the root exactly
    if nothing goes up in the part of it that is seen. -/
theorem below_resolve_iff (hroot : 0 ∉ root) (h : normalize path = .ok logical) :
    Below (ofRoot root).root ((ofRoot root).resolve logical).toNul ↔
      (".." : Bytes) ∉ path.toNul.splitOn Byte.slash := by
  -- The canonical form is that of the segments that count.
  have hlogical : logical = ofSegments ((path.splitOn Byte.slash).filter isSegment) := by
    rw [normalize] at h
    split at h <;> cases h
    rfl
  have hkept : ∀ s ∈ (path.splitOn Byte.slash).filter isSegment, Byte.slash ∉ s :=
    fun s hs => Bytes.not_mem_splitOn _ path s (List.mem_filter.1 hs).1
  have hcounts : ∀ s ∈ (path.splitOn Byte.slash).filter isSegment, s ≠ [] := by
    rintro s hs rfl
    exact absurd (List.mem_filter.1 hs).2 (by decide)
  rw [splitOn_toNul, ← mem_toNulSegments_filter, hlogical, resolve_ofSegments _ hcounts,
    Bytes.toNul_append, if_neg (zero_not_mem_ofRoot hroot), toNul_slashed, below_iff]
  · -- Without segments the root is looked up, which may be a slash of its own.
    split
    · next hroots =>
      rw [hroots.1]
      decide
    · exact Iff.rfl
  · refine slash_not_mem_toNulSegments ?_
    split
    · simp
    · exact hkept

/-- What is said of a path that goes up. -/
def refusal (path : Bytes) : Failure := .fileSystem ("Invalid path (contains ..): " ++ path)

/-- The calls look the path up under a text. -/
structure LooksUp (f : LocalFiles) (path logical text : Bytes) : Prop where
  status_eq : ∀ d, f.status d path =
    match d.find true text with
    | .error e => .error (pathFailed "stat" logical e)
    | .ok (_, entry) => .ok (statusOf logical (f.resolve logical) entry)
  list_eq : ∀ d, f.list d path =
    match d.find true text with
    | .error e => .error (pathFailed "stat" logical e)
    | .ok (place, .directory _) =>
      .ok (directoryEntries d logical (f.resolve logical) place)
    | .ok (_, entry) => .ok (pure [statusOf logical (f.resolve logical) entry])
  openFile_eq : ∀ d, f.openFile d path =
    match d.find true text with
    | .error e => .error (pathFailed "open" logical e)
    | .ok (place, _) => .ok ⟨logical, place⟩

theorem normalize_of_mem (h : (".." : Bytes) ∈ path.splitOn Byte.slash) :
    normalize path = .error (refusal path) := by
  rw [normalize, if_pos (List.contains_iff_mem.2 h)]
  rfl

theorem exists_normalize_of_not_mem (h : (".." : Bytes) ∉ path.splitOn Byte.slash) :
    ∃ logical, normalize path = .ok logical := by
  rw [normalize, if_neg (mt List.contains_iff_mem.1 h)]
  exact ⟨_, rfl⟩

theorem looksUp (f : LocalFiles) (h : normalize path = .ok logical) :
    LooksUp f path logical (f.resolve logical).toNul where
  status_eq d := by
    have hstatus : f.status d path = f.lookUp d logical := by
      rw [status, h]
      rfl
    rw [hstatus, lookUp, Disk.status, Disk.find_toNul]
    cases d.find true (f.resolve logical) <;> rfl
  list_eq d := by
    rw [list, paths, h, Disk.find_toNul]
    rfl
  openFile_eq d := by
    rw [openFile, paths, h, Disk.find_toNul]
    rfl

/-- A path with a segment that goes up is refused by all calls. Any other is
    looked up by all calls under one text, and this leads below the root exactly
    if no segment goes up in the part of the path before its first NUL byte. -/
theorem lookup_below_iff (hroot : 0 ∉ root) (path : Bytes) :
    ((".." : Bytes) ∈ path.splitOn Byte.slash → ∀ d,
      (ofRoot root).status d path = .error (refusal path) ∧
      (ofRoot root).list d path = .error (refusal path) ∧
      (ofRoot root).openFile d path = .error (refusal path)) ∧
    ((".." : Bytes) ∉ path.splitOn Byte.slash → ∃ logical text,
      normalize path = .ok logical ∧ text = ((ofRoot root).resolve logical).toNul ∧
      LooksUp (ofRoot root) path logical text ∧
      (Below (ofRoot root).root text ↔ (".." : Bytes) ∉ path.toNul.splitOn Byte.slash)) := by
  constructor
  · intro hmem d
    have hrefused := normalize_of_mem hmem
    refine ⟨?_, ?_, ?_⟩
    · rw [status, hrefused]
      rfl
    · rw [list, paths, hrefused]
      rfl
    · rw [openFile, paths, hrefused]
      rfl
  · intro hnot
    obtain ⟨logical, hlogical⟩ := exists_normalize_of_not_mem hnot
    exact ⟨logical, _, hlogical, rfl, looksUp _ hlogical, below_resolve_iff hroot hlogical⟩

/-- Of `..` with a NUL byte behind it the disk sees `..` alone. -/
theorem lookup_below_iff_data :
    0 ∉ ("data" : Bytes) ∧ ∃ logical text,
      normalize "..\x00" = .ok logical ∧ text = ((ofRoot "data").resolve logical).toNul ∧
      LooksUp (ofRoot "data") "..\x00" logical text ∧ ¬ Below (ofRoot "data").root text := by
  have hroot : 0 ∉ ("data" : Bytes) := by decide
  obtain ⟨logical, text, hlogical, htext, hlooksUp, hiff⟩ :=
    (lookup_below_iff hroot "..\x00").2 (by decide)
  exact ⟨hroot, logical, text, hlogical, htext, hlooksUp, fun hbelow => hiff.1 hbelow (by decide)⟩

/-- A path that is let through may lead above the root. -/
theorem not_below_of_normalize :
    ¬ ∀ root path logical : Bytes, 0 ∉ root → normalize path = .ok logical →
      Below (ofRoot root).root ((ofRoot root).resolve logical).toNul := by
  intro hall
  have hlogical : normalize "..\x00" = .ok "/..\x00" := by decide
  have hbelow := hall "data" "..\x00" "/..\x00" (by decide) hlogical
  exact (below_resolve_iff (by decide) hlogical).1 hbelow (by decide)

end LocalFiles

end PageServer
