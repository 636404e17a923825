import PageServer.Proofs.Files.Disk
import PageServer.Proofs.Load.Talk

/-!
# Directories listed in rounds

A walk lists the first of the directories that are pending, and puts those that it finds at
the end. There is no record of what was listed, so nothing but the paths keeps it from
listing a directory twice, or from going on for ever.

If every directory has entries at paths of its own (`Branching`), no directory is listed
twice, and all that can be reached was listed when none is pending any more (`Tidy`). The walk
comes to its end if the directories that can be reached are finitely many (`Visits`).
-/

namespace PageServer.Load

/-- The paths of the directories among what is listed. -/
def foldersOf (entries : List FileStatus) : List Bytes := (entries.filter (·.isFolder)).map (·.path)

variable {folders : Bytes → List Bytes} {top p q : Bytes} {listed pending rest more : List Bytes}

/-- The directories that are found below a directory. -/
inductive Reaches (folders : Bytes → List Bytes) (top : Bytes) : Bytes → Prop
  | top : Reaches folders top top
  | child {p q : Bytes} (h : Reaches folders top p) (hq : q ∈ folders p) : Reaches folders top q

/-- From these pending directories on, these are listed, in this order, until none is
    pending. -/
inductive Visits (folders : Bytes → List Bytes) : List Bytes → List Bytes → Prop
  | nil : Visits folders [] []
  | cons {p : Bytes} {rest more : List Bytes} (h : Visits folders (rest ++ folders p) more) :
      Visits folders (p :: rest) (p :: more)

/-- A directory is found in one other directory at most, and once. -/
structure Branching (folders : Bytes → List Bytes) (top : Bytes) : Prop where
  nodup : ∀ p, Reaches folders top p → (folders p).Nodup
  ne_top : ∀ p, Reaches folders top p → top ∉ folders p
  parent_eq : ∀ p p' q, Reaches folders top p → Reaches folders top p' → q ∈ folders p →
    q ∈ folders p' → p = p'

/-- These directories were listed, each once, and these are pending. -/
structure Tidy (folders : Bytes → List Bytes) (top : Bytes) (listed pending : List Bytes) :
    Prop where
  nodup : (listed ++ pending).Nodup
  reaches : ∀ q ∈ listed ++ pending, Reaches folders top q
  /-- Each of them is the first one, or it was found in one that was listed. -/
  found : ∀ q ∈ listed ++ pending, q = top ∨ ∃ p ∈ listed, q ∈ folders p
  /-- Nothing that was found is missing. -/
  closed : ∀ p ∈ listed, ∀ q ∈ folders p, q ∈ listed ++ pending
  top_mem : top ∈ listed ++ pending

namespace Tidy

theorem start (folders : Bytes → List Bytes) (top : Bytes) : Tidy folders top [] [top] where
  nodup := List.nodup_singleton top
  reaches := List.forall_mem_singleton.2 .top
  found := List.forall_mem_singleton.2 (.inl rfl)
  closed := List.forall_mem_nil _
  top_mem := List.mem_singleton_self top

/-- The first of the pending directories is listed. -/
theorem next (hb : Branching folders top) (h : Tidy folders top listed (p :: rest)) :
    Tidy folders top (listed ++ [p]) (rest ++ folders p) := by
  have hsame : listed ++ [p] ++ (rest ++ folders p) = listed ++ p :: rest ++ folders p := by simp
  have hp : Reaches folders top p := h.reaches p (by simp)
  have hnew : p ∉ listed := fun hmem =>
    (List.nodup_append'.1 h.nodup).2.2 hmem List.mem_cons_self
  refine ⟨?_, ?_, ?_, ?_, ?_⟩
  · rw [hsame]
    refine h.nodup.append (hb.nodup p hp) fun q hold hq => ?_
    -- A directory that is found now was not found before: it is in one directory only.
    rcases h.found q hold with rfl | ⟨p', hp', hq'⟩
    · exact hb.ne_top p hp hq
    · have hreached := h.reaches p' (List.mem_append_left _ hp')
      exact hnew (hb.parent_eq p p' q hp hreached hq hq' ▸ hp')
  · rw [hsame]
    intro q hq
    rcases List.mem_append.1 hq with hold | hq
    · exact h.reaches q hold
    · exact hp.child hq
  · rw [hsame]
    intro q hq
    rcases List.mem_append.1 hq with hold | hq
    · exact (h.found q hold).imp_right fun ⟨p', hp', hq'⟩ => ⟨p', List.mem_append_left _ hp', hq'⟩
    · exact .inr ⟨p, by simp, hq⟩
  · rw [hsame]
    intro p' hp' q hq
    rcases List.mem_append.1 hp' with hp' | hp'
    · exact List.mem_append_left _ (h.closed p' hp' q hq)
    · obtain rfl := List.mem_singleton.1 hp'
      exact List.mem_append_right _ hq
  · rw [hsame]
    exact List.mem_append_left _ h.top_mem

/-- When no directory is pending, all that can be reached was listed. -/
theorem mem_listed (h : Tidy folders top listed []) (hq : Reaches folders top q) : q ∈ listed := by
  have htop := h.top_mem
  have hclosed := h.closed
  rw [List.append_nil] at htop hclosed
  induction hq with
  | top => exact htop
  | child _ hq ih => exact hclosed _ ih _ hq

/-- Each directory that can be reached is visited, once. -/
theorem visits (hb : Branching folders top) (h : Tidy folders top listed pending)
    (hv : Visits folders pending more) :
    (listed ++ more).Nodup ∧ (∀ q ∈ more, Reaches folders top q) ∧
      ∀ q, Reaches folders top q → q ∈ listed ++ more := by
  induction hv generalizing listed with
  | nil =>
    refine ⟨h.nodup, List.forall_mem_nil _, fun q hq => ?_⟩
    rw [List.append_nil]
    exact h.mem_listed hq
  | @cons p rest more _ ih =>
    have hnext := ih (h.next hb)
    rw [List.append_assoc] at hnext
    obtain ⟨hnodup, hreaches, hall⟩ := hnext
    exact ⟨hnodup, List.forall_mem_cons.2 ⟨h.reaches p (by simp), hreaches⟩, hall⟩

end Tidy

/-! ### Entries at paths of their own -/

/-- The path of an entry tells its name and the directory that it is in. -/
theorem child_injective {p p' name name' : Bytes} (hname : Byte.slash ∉ name)
    (hname' : Byte.slash ∉ name') (h : LocalFiles.child p name = LocalFiles.child p' name') :
    name = name' ∧ (p = p' ∨ p.length ≤ 1 ∧ p'.length ≤ 1) := by
  have hbase : ∀ {q : Bytes}, (if q == [Byte.slash] then [] else q) = q ∨
      (if q == [Byte.slash] then [] else q) = [] ∧ q.length ≤ 1 := by
    intro q
    split
    · next hq => exact .inr ⟨rfl, by rw [beq_iff_eq.1 hq]; exact Nat.le_refl 1⟩
    · exact .inl rfl
  have hcomponents := congrArg Disk.components h
  rw [LocalFiles.child, LocalFiles.child, Disk.components_child _ hname,
    Disk.components_child _ hname'] at hcomponents
  obtain ⟨hbases, hnames⟩ := List.append_inj' hcomponents rfl
  refine ⟨List.singleton_inj.1 hnames, ?_⟩
  -- The components tell the base, as joining them again gives it back.
  have hsame := congrArg [Byte.slash].intercalate hbases
  rw [Disk.components, Disk.components, List.intercalate_splitOn, List.intercalate_splitOn] at hsame
  rcases hbase (q := p) with hp | ⟨hp, hlength⟩
  · rcases hbase (q := p') with hp' | ⟨hp', hlength'⟩
    · rw [hp, hp'] at hsame
      exact .inl hsame
    · rw [hp, hp'] at hsame
      exact .inr ⟨by simp [hsame], hlength'⟩
  · rcases hbase (q := p') with hp' | ⟨hp', hlength'⟩
    · rw [hp, hp'] at hsame
      exact .inr ⟨hlength, by simp [← hsame]⟩
    · exact .inr ⟨hlength, hlength'⟩

theorem length_lt_child {name : Bytes} (hname : name ≠ []) (p : Bytes) :
    1 < (LocalFiles.child p name).length ∧ p.length < (LocalFiles.child p name).length := by
  have hpos := List.length_pos_iff.2 hname
  rw [LocalFiles.child]
  split
  · next hp =>
    rw [beq_iff_eq.1 hp]
    simp only [List.nil_append, List.length_cons, List.length_nil]
    omega
  · rw [List.length_append, List.length_cons]
    omega

/-- The entries are at the paths of names in the directory, each at one of its own. -/
structure Named (dir : Bytes) (paths : List Bytes) : Prop where
  nodup : paths.Nodup
  exists_name : ∀ q ∈ paths, ∃ name, name ≠ [] ∧ Byte.slash ∉ name ∧ q = LocalFiles.child dir name

theorem Named.sublist {paths paths' : List Bytes} (h : Named p paths)
    (hsub : paths'.Sublist paths) :
    Named p paths' := ⟨h.nodup.sublist hsub, fun q hq => h.exists_name q (hsub.subset hq)⟩

/-- Only the first directory may have a path that is short, as that of the root is. -/
theorem Reaches.eq_top_or_long (h : ∀ p, Reaches folders top p → Named p (folders p))
    (hq : Reaches folders top q) : top.length ≤ q.length ∧ (q = top ∨ 1 < q.length) := by
  induction hq with
  | top => exact ⟨Nat.le_refl _, .inl rfl⟩
  | @child p q hp hq ih =>
    obtain ⟨name, hne, -, rfl⟩ := (h p hp).exists_name q hq
    obtain ⟨hone, hlt⟩ := length_lt_child hne p
    exact ⟨by omega, .inr hone⟩

/-- What is in two directories at once is not in two. -/
theorem Reaches.eq_of_child {paths paths' : List Bytes} {p' : Bytes}
    (h : ∀ p, Reaches folders top p → Named p (folders p)) (hp : Reaches folders top p)
    (hp' : Reaches folders top p') (hpaths : Named p paths) (hpaths' : Named p' paths')
    (hq : q ∈ paths) (hq' : q ∈ paths') : p = p' := by
  obtain ⟨name, -, hslash, rfl⟩ := hpaths.exists_name q hq
  obtain ⟨name', -, hslash', heq⟩ := hpaths'.exists_name _ hq'
  rcases (child_injective hslash hslash' heq).2 with rfl | ⟨hshort, hshort'⟩
  · rfl
  · have htop := (hp.eq_top_or_long h).2.resolve_right (Nat.not_lt.2 hshort)
    have htop' := (hp'.eq_top_or_long h).2.resolve_right (Nat.not_lt.2 hshort')
    exact htop.trans htop'.symm

/-- Directories whose entries have names of their own are found once. -/
theorem branching_of_named (h : ∀ p, Reaches folders top p → Named p (folders p)) :
    Branching folders top := by
  refine ⟨fun p hp => (h p hp).nodup, fun p hp htop => ?_, fun p p' q hp hp' hq hq' =>
    hp.eq_of_child h hp' (h p hp) (h p' hp') hq hq'⟩
  obtain ⟨name, hne, -, heq⟩ := (h p hp).exists_name top htop
  have hlt := (length_lt_child hne p).2
  rw [← heq] at hlt
  exact absurd (hp.eq_top_or_long h).1 (Nat.not_le.2 hlt)

end PageServer.Load
