import PageServer.Proofs.Worker.Reads

/-!
# Positions in numbers of sixty-four bits

A page read admits an offset and a length each for itself (`Admitted`), and cuts the length
at the end of the page by the sum of the two. It then reads from the sum of the start of the
page and the offset on, up to the sum of this and the length.

The first sum is one of sixty-four bits for all that is admitted just if twice the page
size is, and the others just if the end of the page is (`PageDesk.sums_le_iff`): neither
follows from the numbers being such (`PageDesk.sum_not_le`), as the store locates a page
as soon as its start is one. Where the first sum is none, the length is not cut, and what is
read up to is behind the end of the page.
-/

namespace PageServer.Worker

open Http

variable {t : Target} {pageSize offset length n : Int}

/-- What is read of a target is the offset that it chooses, and the length. This is cut at the
    end of the page, unless its sum with the offset is no number of sixty-four bits. -/
theorem rangeOf_eq_ok_iff_cut (hsize : 0 < pageSize) (hbound : pageSize ≤ int64Max) :
    rangeOf t pageSize = .ok (offset, length) ↔ ∃ n, Admitted t pageSize offset n ∧
      length = if offset + n ≤ int64Max then cutLength pageSize offset n else n := by
  rw [rangeOf_eq_ok_iff]
  refine exists_congr fun n => and_congr_right fun hadmitted => ?_
  rw [hadmitted.clampLength_eq hsize hbound]

/-- A target that gives both numbers. -/
def asking (offset n : Int) : Target :=
  ⟨"file", [], .ofList [("offset", Numeral.ofInt offset), ("length", Numeral.ofInt n)]⟩

theorem admitted_asking (hbound : pageSize ≤ int64Max) (hoffset : 0 ≤ offset ∧ offset ≤ pageSize)
    (hn : 0 ≤ n ∧ n ≤ pageSize) : Admitted (asking offset n) pageSize offset n := by
  have htext : ∀ v : Int, 0 ≤ v ∧ v ≤ pageSize → Numeral.Int64Text (Numeral.ofInt v) v := by
    intro v hv
    have hmin : int64Min ≤ 0 := by decide
    exact ⟨Numeral.signedDenotes_ofInt v, by omega, by omega⟩
  exact ⟨.inr ⟨_, rfl, htext _ hoffset, hoffset⟩, .inr ⟨_, rfl, htext _ hn, hn⟩⟩

namespace PageDesk

variable {p : LocalPages}

/-- Of pages that are made, what is read of a target is the offset that it chooses, and the length
    as it is cut at the end of the page; where the sum of the two is none of sixty-four bits, it
    is not cut.

    An offset and a length have a sum of sixty-four bits whenever they are admitted just if twice
    the page size is one. Where a page is located, the position that is read from and the one
    that is to be read up to are such whenever an offset and a length are admitted just if the
    end of the page is one; the position that is read up to in fact is so just if twice the page
    size is one as well. And the end of the page is one if so many bytes behind the end of the
    file are. -/
theorem sums_le_iff (hsize : 0 < p.pageSize) (hbound : p.pageSize ≤ int64Max) :
    (∀ t offset length, rangeOf t p.pageSize = .ok (offset, length) ↔
      ∃ n, Admitted t p.pageSize offset n ∧
        length = if offset + n ≤ int64Max then cutLength p.pageSize offset n else n) ∧
    ((∀ t offset n, Admitted t p.pageSize offset n → offset + n ≤ int64Max) ↔
      2 * p.pageSize ≤ int64Max) ∧
    ∀ d id index base, p.find d id index = some base →
      ((∀ t offset n, Admitted t p.pageSize offset n → base + offset ≤ int64Max ∧
          base + offset + cutLength p.pageSize offset n ≤ int64Max) ↔
        (index + 1) * p.pageSize ≤ int64Max) ∧
      ((∀ t offset length, rangeOf t p.pageSize = .ok (offset, length) →
          base + offset + length ≤ int64Max) ↔
        2 * p.pageSize ≤ int64Max ∧ (index + 1) * p.pageSize ≤ int64Max) ∧
      ∀ e, d.status (p.pathFor id) = .ok e → Disk.sizeOf e + p.pageSize ≤ int64Max + 1 →
        (index + 1) * p.pageSize ≤ int64Max := by
  have hall : 0 ≤ p.pageSize ∧ p.pageSize ≤ p.pageSize := ⟨Int.le_of_lt hsize, Int.le_refl _⟩
  have hgreatest := admitted_asking hbound hall hall
  refine ⟨fun t offset length => rangeOf_eq_ok_iff_cut hsize hbound,
    ⟨fun h => ?_, fun h t offset n hadmitted => ?_⟩, fun d id index base hfind => ?_⟩
  · have := h _ _ _ hgreatest
    omega
  · have := hadmitted.bounds hsize
    omega
  obtain ⟨hstart, -, rfl, e, hstatus, hlt⟩ := LocalPages.base_bounds hsize hfind
  rw [Int.add_mul, Int.one_mul]
  refine ⟨⟨fun h => ?_, fun h t offset n hadmitted => ?_⟩,
    ⟨fun h => ?_, fun ⟨htwice, hend⟩ t offset length hrange => ?_⟩, fun e' hstatus' hend => ?_⟩
  · exact (h _ _ _ hgreatest).1
  · have := hadmitted.bounds hsize
    rw [cutLength_eq]
    omega
  · -- The greatest numbers that are admitted: either is as large as the page.
    have hread := h _ _ _ ((rangeOf_eq_ok_iff_cut hsize hbound).2 ⟨_, hgreatest, rfl⟩)
    rw [cutLength_eq] at hread
    split at hread <;> omega
  · obtain ⟨n, hadmitted, rfl⟩ := (rangeOf_eq_ok_iff_cut hsize hbound).1 hrange
    have hbounds := hadmitted.bounds hsize
    rw [if_pos (by omega), cutLength_eq]
    omega
  · obtain rfl := Except.ok.inj (hstatus.symm.trans hstatus')
    omega

/-- They all are for the first page of four bytes of a file. -/
theorem sums_le_iff_four : ∃ base,
    LocalPages.find ⟨"/pages", 4⟩ filledOnce.disk "a" 0 = some base ∧
      ∀ t offset n, Admitted t 4 offset n → offset + n ≤ int64Max ∧
        base + offset ≤ int64Max ∧ base + offset + cutLength 4 offset n ≤ int64Max := by
  have hfind : LocalPages.find ⟨"/pages", 4⟩ filledOnce.disk "a" 0 = some 0 := by decide +kernel
  obtain ⟨-, hsum, hpositions⟩ := sums_le_iff (p := ⟨"/pages", 4⟩) (by decide) (by decide)
  obtain ⟨hends, -⟩ := hpositions _ _ _ _ hfind
  exact ⟨0, hfind, fun t offset n hadmitted =>
    ⟨hsum.2 (by decide) t offset n hadmitted, hends.2 (by decide) t offset n hadmitted⟩⟩

/-- Not all of them are for pages of the greatest size. -/
theorem sum_not_le :
    ¬ ∀ (p : LocalPages) (d : Disk) (id : Bytes) (index base : Int) (t : Target) (offset n : Int),
      0 < p.pageSize → p.pageSize ≤ int64Max → p.find d id index = some base →
      Admitted t p.pageSize offset n →
      offset + n ≤ int64Max ∧ base + offset ≤ int64Max ∧
        base + offset + cutLength p.pageSize offset n ≤ int64Max := by
  intro hall
  -- The first page of `a` holds `x`.
  have hfind : LocalPages.find ⟨"/pages", int64Max⟩
      (LocalPages.write ⟨"/pages", int64Max⟩ "a" 0 "x" LocalPages.freshDisk).state "a" 0 =
        some 0 := by decide +kernel
  have hadmitted : Admitted (asking 1 int64Max) int64Max 1 int64Max :=
    admitted_asking (Int.le_refl _) (by decide) (by decide)
  have hsum := (hall _ _ _ _ _ _ _ _ (by decide) (Int.le_refl _) hfind hadmitted).1
  exact absurd hsum (by decide)

end PageDesk

end PageServer.Worker
