import PageServer.Proofs.Pages.Local

/-!
# Ids and their files

The file of an id is named by what is seen of the id up to its first NUL byte. Ids of
which different parts are seen have files of their own: no write to one of them, whatever
comes of it, matters to the other one. Ids of which the same is seen are names of one
file (`LocalPages.isolated_or_alias`), although they may be different
(`LocalPages.not_isolated`).
-/

namespace PageServer.LocalPages

variable {p : LocalPages} {d : Disk} {place : DiskPlace} {a b : Bytes} {index position length : Int}
  {data : Bytes}

/-! ### Other files -/

namespace RootedAt

theorem locate_write (h : p.RootedAt d place) (hb : isFileId b) (hne : b.toNul ≠ a.toNul) :
    (p.write a index data d).state.locate true (p.pathFor b) = d.locate true (p.pathFor b) := by
  have hroot : (p.write a index data d).state.entry? place = d.entry? place :=
    h.entry?_write a index data (by simp)
  have hfile : (p.write a index data d).state.entry? (place ++ [b.toNul]) =
      d.entry? (place ++ [b.toNul]) := h.entry?_write a index data (by simpa using hne)
  rw [(h.write a index data).locate_pathFor hb, h.locate_pathFor hb, Disk.lookIn, Disk.lookIn,
    hroot, hfile]

theorem readAt_write (h : p.RootedAt d place) (hb : isFileId b) (hne : b.toNul ≠ a.toNul) :
    p.readAt (p.write a index data d).state b position length = p.readAt d b position length := by
  have hfind : (p.write a index data d).state.find true (p.pathFor b) =
      d.find true (p.pathFor b) := by
    rw [Disk.find, Disk.find, h.locate_write hb hne]
  rw [readAt_eq h.trimRoot_eq hb, readAt_eq h.trimRoot_eq hb, hfind]
  cases hplace : d.find true (p.pathFor b) with
  | error e => rfl
  | ok found =>
    obtain ⟨q, e⟩ := found
    have hq : q ≠ place ++ [a.toNul] := by
      rcases h.place_of_find hb hplace with rfl | rfl
      · simp
      · simpa using hne
    simp only [LocalFiles.read, Disk.read, h.entry?_write a index data hq]

end RootedAt

/-! ### One file -/

/-- The bytes that are read do not depend on the name under which a file was opened. -/
theorem toOption_read (d : Disk) (q : DiskPlace) (path path' : Bytes) :
    (LocalFiles.read d ⟨path, q⟩ position length).toOption =
      (LocalFiles.read d ⟨path', q⟩ position length).toOption := by
  simp only [LocalFiles.read]
  split
  · rfl
  split
  · rfl
  split <;> rfl

namespace RootedAt

variable (h : p.RootedAt d place) (ha : isFileId a) (hb : isFileId b) (hseen : a.toNul = b.toNul)

include h ha hb hseen

theorem locate_alias : d.locate true (p.pathFor a) = d.locate true (p.pathFor b) := by
  rw [h.locate_pathFor ha, h.locate_pathFor hb, hseen]

theorem readAt_alias :
    (p.readAt d a position length).toOption = (p.readAt d b position length).toOption := by
  rw [readAt_eq h.trimRoot_eq ha, readAt_eq h.trimRoot_eq hb, Disk.find, Disk.find,
    h.locate_alias ha hb hseen]
  split
  · rfl
  · exact toOption_read ..

end RootedAt

/-! ### Isolation -/

/-- Ids of which different parts are seen are isolated: a write to one of them changes
    neither where pages of the other one are found nor what is read of them. Ids of which
    the same is seen are names of one file: the same pages are found for them, and the
    same bytes are read. -/
theorem isolated_or_alias (h : p.RootedAt d place) (ha : isFileId a) (hb : isFileId b) :
    (a.toNul ≠ b.toNul → ∀ index data i position length,
      p.find (p.write a index data d).state b i = p.find d b i ∧
        p.readAt (p.write a index data d).state b position length =
          p.readAt d b position length) ∧
    (a.toNul = b.toNul → ∀ i position length,
      p.find d a i = p.find d b i ∧
        (p.readAt d a position length).toOption = (p.readAt d b position length).toOption) := by
  constructor
  · intro hne index data i position length
    exact ⟨find_congr rfl (h.locate_write hb hne.symm), h.readAt_write hb hne.symm⟩
  · intro hseen i position length
    exact ⟨find_congr (ha.trans hb.symm) (h.locate_alias ha hb hseen),
      h.readAt_alias ha hb hseen⟩

/-- A page of `b` is still read after a write to `a`. -/
theorem isolated_or_alias_letters :
    (LocalPages.mk "/pages" 4).readAt ((LocalPages.mk "/pages" 4).write "a" 0 "12"
      ((LocalPages.mk "/pages" 4).write "b" 0 "34" freshDisk).state).state "b" 0 4 =
        .ok (some "34") := by
  have hroot := (emptyAt_freshDisk 4).toRootedAt.write "b" 0 "34"
  have hread := ((isolated_or_alias hroot (a := "a") (b := "b") (by decide) (by decide)).1
    (by decide) 0 "12" 0 0 4).2
  rw [hread]
  rfl

/-- Different ids need not be isolated. -/
theorem not_isolated :
    ¬ ∀ (p : LocalPages) (d : Disk) (place : DiskPlace) (a b : Bytes), p.RootedAt d place →
      isFileId a → isFileId b → a ≠ b → ∀ index data i position length,
        p.find (p.write a index data d).state b i = p.find d b i ∧
          p.readAt (p.write a index data d).state b position length =
            p.readAt d b position length := by
  intro hall
  have hfind := (hall ⟨"/pages", 4⟩ freshDisk _ "a\x00x" "a\x00y" (emptyAt_freshDisk 4).toRootedAt
    (by decide) (by decide) (by decide) 0 "12" 0 0 4).1
  exact absurd hfind (by decide +kernel)

end PageServer.LocalPages
