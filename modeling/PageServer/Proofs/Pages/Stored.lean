import PageServer.Proofs.Pages.Local

/-!
# Contents in pages

A content is *stored* under an id if the file of the id begins with it (`LocalPages.Stored`).
It gets longer write by write (`LocalPages.Stored.write`), and writes under other ids leave it as
it is (`LocalPages.Stored.write_other`). Where a part of it is written once more, the whole disk
stays as it is (`LocalPages.Stored.write_same`).
-/

namespace PageServer

/-! ### Bytes written over themselves -/

/-- Bytes are written behind a front. -/
theorem Bytes.overwrite_append (front rest data : Bytes) :
    Bytes.overwrite (front ++ rest) front.length data = front ++ data ++ rest.drop data.length := by
  have hzeros : front.length - (front ++ rest).length = 0 := by
    rw [List.length_append]
    omega
  rw [overwrite, List.take_left, hzeros, List.replicate_zero, List.append_nil,
    List.drop_length_add_append]

/-- Bytes that are there already are written. -/
theorem Bytes.overwrite_same {s data : Bytes} {offset : Nat} (hoffset : offset ≤ s.length)
    (h : data <+: s.drop offset) : s.overwrite offset data = s := by
  obtain ⟨rest, hrest⟩ := h
  have hfront : (s.take offset).length = offset := List.length_take_of_le hoffset
  have hsplit : s.take offset ++ (data ++ rest) = s := by rw [hrest, List.take_append_drop]
  have happend := overwrite_append (s.take offset) (data ++ rest) data
  rw [hfront, hsplit, List.drop_left, List.append_assoc, hsplit] at happend
  exact happend

/-- An entry that is there already is put. -/
theorem Disk.put_same {d : Disk} {place : DiskPlace} {entry : DiskEntry}
    (hplace : place ≠ []) (hentry : d.entry? place = some entry) : d.put place entry = d := by
  have hget : d.entries.get? place = some entry := by
    obtain ⟨name, rest, rfl⟩ := List.exists_cons_of_ne_nil hplace
    exact hentry
  have hentries : d.entries.insert place entry = d.entries := by
    refine Table.ext_get? fun other => ?_
    rw [Table.get?_insert]
    split
    · next heq =>
      rw [Std.LawfulEqCmp.compare_eq_iff_eq.1 heq, hget]
    · rfl
  rw [put, hentries]

namespace LocalPages

variable {p : LocalPages} {d d' : Disk} {place : DiskPlace} {id other : Bytes} {index base : Int}
  {content front data : Bytes}

/-- The file of the id begins with the content, and the content ends within numbers of sixty-four
    bits. -/
structure Stored (p : LocalPages) (d : Disk) (place : DiskPlace) (id content : Bytes) : Prop where
  isPrefix : content <+: d.contentAt (place ++ [id.toNul])
  fits : content ≠ [] → p.Fits id.toNul
  length_le : (content.length : Int) ≤ int64Max

/-- Nothing is stored anyway. -/
theorem stored_nil (p : LocalPages) (d : Disk) (place : DiskPlace) (id : Bytes) :
    p.Stored d place id [] := ⟨List.nil_prefix, fun h => absurd rfl h, by decide⟩

namespace Stored

/-- Bytes are written behind what is stored. -/
theorem write (hs : p.Stored d place id front) (hsize : 0 < p.pageSize)
    (ht : p.Taken d d' place id index data base) (hbase : base = front.length) :
    p.Stored d' place id (front ++ data) where
  isPrefix := by
    obtain ⟨rest, hrest⟩ := hs.isPrefix
    rw [ht.contentAt_eq]
    by_cases hdata : data = []
    · rw [if_neg fun h => h.2 hdata, hdata, List.append_nil, ← hrest]
      exact List.prefix_append _ _
    · rw [if_pos ⟨rfl, hdata⟩, ← hrest, hbase, Int.toNat_natCast, Bytes.overwrite_append]
      exact List.prefix_append _ _
  fits _ := ht.fits
  length_le := by
    obtain ⟨-, -, -, -, hend⟩ := (baseFor_eq_ok_iff hsize).1 ht.baseFor_eq
    rw [List.length_append]
    omega

/-- Writes under other ids leave it as it is. -/
theorem write_other (hs : p.Stored d place id content) (h : p.RootedAt d place)
    (hne : other.toNul ≠ id.toNul) (index : Int) (data : Bytes) :
    p.Stored (p.write other index data d).state place id content where
  isPrefix := by
    have hplace : place ++ [id.toNul] ≠ place ++ [other.toNul] := by simpa using hne.symm
    rw [Disk.contentAt, h.entry?_write other index data hplace, ← Disk.contentAt]
    exact hs.isPrefix
  fits := hs.fits
  length_le := hs.length_le

/-- What is stored is in a file. -/
theorem exists_entry (hs : p.Stored d place id content) (hne : content ≠ []) :
    ∃ c m, d.entry? (place ++ [id.toNul]) = some (.file c m) ∧ content <+: c := by
  have hpre := hs.isPrefix
  rw [Disk.contentAt] at hpre
  split at hpre
  · next c m hentry => exact ⟨c, m, hentry, hpre⟩
  · exact absurd (List.prefix_nil.1 hpre) hne

/-- If anything is stored, there is a first page. -/
theorem find_zero (hs : p.Stored d place id content) (h : p.RootedAt d place)
    (hsize : 0 < p.pageSize) (hid : isFileId id) (hne : content ≠ []) : p.find d id 0 = some 0 := by
  obtain ⟨c, m, hentry, hpre⟩ := hs.exists_entry hne
  have hfile : ∀ e, d.entry? (place ++ [id.toNul]) = some e → ∃ c m, e = .file c m :=
    fun e he => ⟨c, m, Option.some.inj (he.symm.trans hentry)⟩
  have hlength : 0 < c.length := (List.length_pos_iff.2 hne).trans_le hpre.length_le
  rw [find_eq hsize hid fun e => h.isFile_of_fits hid (hs.fits hne) hfile,
    h.content_of_fits hid (hs.fits hne) hfile, Disk.contentAt, hentry]
  dsimp only
  rw [Int.zero_mul, if_pos ⟨Int.le_refl 0, by decide, by omega⟩]

/-- A part of it is written once more. -/
theorem write_same (hs : p.Stored d place id content) (h : p.RootedAt d place)
    (hsize : 0 < p.pageSize) (hid : isFileId id) (hdata : data ≠ [])
    (hindex : 0 ≤ index) (hlength : (data.length : Int) ≤ p.pageSize)
    (hpart : data <+: content.drop (index * p.pageSize).toNat) :
    p.write id index data d = ⟨.ok true, d, []⟩ := by
  have hstart : 0 ≤ index * p.pageSize := Int.mul_nonneg hindex (Int.le_of_lt hsize)
  have hpositive : 0 < data.length := List.length_pos_iff.2 hdata
  have hroom := hpart.length_le
  have hends := hs.length_le
  rw [List.length_drop] at hroom
  have hne : content ≠ [] := List.ne_nil_of_length_pos (by omega)
  obtain ⟨c, m, hentry, rest, rfl⟩ := hs.exists_entry hne
  have hbase : p.baseFor id index data = .ok (index * p.pageSize) :=
    (baseFor_eq_ok_iff hsize).2 ⟨hid, hindex, hlength, rfl, by omega⟩
  have hfind := h.find_of_fits hid (hs.fits hne)
  rw [hentry] at hfind
  have hopen : d.openForWriting (p.pathFor id) = .ok (place ++ [id.toNul], d) := by
    rw [Disk.openForWriting, Disk.find_eq_ok_iff.1 hfind]
  -- The bytes that are written are those that are there.
  have hover : (content ++ rest).overwrite (index * p.pageSize).toNat data = content ++ rest := by
    refine Bytes.overwrite_same (by rw [List.length_append]; omega) ?_
    rw [List.drop_append_of_le_length (by omega)]
    exact hpart.trans (List.prefix_append _ _)
  have hwrite : d.write (place ++ [id.toNul]) (index * p.pageSize).toNat data = d := by
    rw [Disk.write, hentry]
    dsimp only
    rw [if_neg (mt List.isEmpty_iff.1 hdata), hover]
    exact Disk.put_same (by simp) hentry
  rw [LocalPages.write, hbase]
  dsimp only
  rw [hopen]
  dsimp only
  rw [hwrite]

end Stored

end LocalPages

end PageServer
