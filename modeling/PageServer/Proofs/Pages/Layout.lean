import PageServer.Proofs.Pages.Local

/-!
# What pages hold after writes

Pages are written to a directory that was empty, one after the other. Some of the
writes are taken, and a page is made of the bytes of these: a byte of a page is the one
of the last write to that page which reaches it (`byteOf`), and the file of an id ends
where the furthest of its pages does (`fileEnd`). The directory has this in it in each
state (`Layout.Faithful`), as each write keeps it (`Layout.Faithful.put`).

So pages are independent of each other, and a page is located exactly if the file of its
id reaches beyond its first byte (`layout_of_writes`).
-/

namespace PageServer

/-- A page that is to be written. -/
structure PageWrite where
  id : Bytes
  index : Int
  data : Bytes
  deriving DecidableEq, Repr

namespace PageWrite

/-- The page reaches the byte of an id at an offset in the page with an index. -/
def Reaches (w : PageWrite) (id : Bytes) (index : Int) (offset : Nat) : Prop :=
  w.id = id ∧ w.index = index ∧ offset < w.data.length

instance (w : PageWrite) (id : Bytes) (index : Int) (offset : Nat) :
    Decidable (w.Reaches id index offset) :=
  inferInstanceAs (Decidable (w.id = id ∧ w.index = index ∧ offset < w.data.length))

/-- The write is within its page and within numbers of sixty-four bits. -/
structure WithinPage (w : PageWrite) (pageSize : Int) : Prop where
  zero_not_mem : 0 ∉ w.id
  isFileId : PageServer.isFileId w.id
  index_nonneg : 0 ≤ w.index
  length_le : (w.data.length : Int) ≤ pageSize
  end_le : w.index * pageSize + w.data.length ≤ int64Max

end PageWrite

/-- The byte of a page at an offset, after writes, the last one first. What no write
    reaches is zero. -/
def byteOf (pages : List PageWrite) (id : Bytes) (index : Int) (offset : Nat) : Byte :=
  match pages.find? (·.Reaches id index offset) with
  | some w => w.data.getD offset 0
  | none => 0

/-- The end of the file of an id: of all its pages that are not empty, the end of the
    furthest one. -/
def fileEnd (pageSize : Int) (id : Bytes) : List PageWrite → Int
  | [] => 0
  | w :: pages =>
    if w.id = id ∧ w.data ≠ []
      then max (w.index * pageSize + w.data.length) (fileEnd pageSize id pages)
    else fileEnd pageSize id pages

/-- A disk, and the pages that were written to it, the last one first. -/
structure Layout where
  disk : Disk
  pages : List PageWrite := []

namespace Layout

/-- A page is written, if the write is taken. -/
def put (p : LocalPages) (l : Layout) (w : PageWrite) : Layout :=
  let o := p.write w.id w.index w.data l.disk
  match o.result with
  | .ok true => ⟨o.state, w :: l.pages⟩
  | _ => ⟨o.state, l.pages⟩

/-- Pages are written one after the other. -/
def putAll (p : LocalPages) (l : Layout) (ws : List PageWrite) : Layout := ws.foldl (put p) l

end Layout

/-! ### Bytes of pages -/

section Bytes

variable {pages : List PageWrite} {w : PageWrite} {id : Bytes} {index pageSize : Int} {offset : Nat}

theorem byteOf_cons_of_reaches (h : w.Reaches id index offset) :
    byteOf (w :: pages) id index offset = w.data.getD offset 0 := by
  rw [byteOf, List.find?_cons_of_pos (by simpa using h)]

theorem byteOf_cons_of_not_reaches (h : ¬ w.Reaches id index offset) :
    byteOf (w :: pages) id index offset = byteOf pages id index offset := by
  rw [byteOf, byteOf, List.find?_cons_of_neg (by simpa using h)]

theorem le_fileEnd (pageSize : Int) (hw : w ∈ pages) (hdata : w.data ≠ []) :
    w.index * pageSize + w.data.length ≤ fileEnd pageSize w.id pages := by
  induction pages with
  | nil => cases hw
  | cons w' pages ih =>
    rw [fileEnd]
    rcases List.mem_cons.1 hw with rfl | hw
    · rw [if_pos ⟨rfl, hdata⟩]
      exact Int.le_max_left _ _
    · split
      · exact Int.le_trans (ih hw) (Int.le_max_right _ _)
      · exact ih hw

theorem fileEnd_le {bound : Int} (hbound : 0 ≤ bound)
    (h : ∀ w ∈ pages, w.index * pageSize + w.data.length ≤ bound) :
    fileEnd pageSize id pages ≤ bound := by
  induction pages with
  | nil => exact hbound
  | cons w pages ih =>
    rw [List.forall_mem_cons] at h
    rw [fileEnd]
    split
    · exact Int.max_le.2 ⟨h.1, ih h.2⟩
    · exact ih h.2

/-- Pages do not overlap: what is written from the start of a page on, within the page
    size, has those bytes of other pages in it that it has of the page itself. -/
theorem in_page_iff (index' index : Int) {length : Nat} (hlength : (length : Int) ≤ pageSize)
    (hoffset : (offset : Int) < pageSize) :
    (index' * pageSize ≤ index * pageSize + offset ∧
      index * pageSize + offset < index' * pageSize + length) ↔
      index' = index ∧ offset < length := by
  constructor
  · rintro ⟨hstart, hend⟩
    have hindex : index' = index := by
      rcases Int.lt_trichotomy index' index with hlt | heq | hgt
      · have := Int.mul_le_mul_of_nonneg_right (Int.add_one_le_of_lt hlt) (by omega : 0 ≤ pageSize)
        rw [Int.add_mul, Int.one_mul] at this
        omega
      · exact heq
      · have := Int.mul_le_mul_of_nonneg_right (Int.add_one_le_of_lt hgt) (by omega : 0 ≤ pageSize)
        rw [Int.add_mul, Int.one_mul] at this
        omega
    subst hindex
    exact ⟨rfl, by omega⟩
  · rintro ⟨rfl, hlt⟩
    omega

theorem fileEnd_eq_zero (h : ∀ w ∈ pages, w.id ≠ id) : fileEnd pageSize id pages = 0 := by
  induction pages with
  | nil => rfl
  | cons w pages ih =>
    rw [List.forall_mem_cons] at h
    rw [fileEnd, if_neg fun hand => h.1 hand.1, ih h.2]

/-- A write within its page changes bytes of this page only. -/
theorem getD_overwrite_page (content : Bytes) (hsize : 0 < pageSize) (hw : 0 ≤ w.index)
    (hlength : (w.data.length : Int) ≤ pageSize) (hindex : 0 ≤ index)
    (hoffset : (offset : Int) < pageSize) :
    (content.overwrite (w.index * pageSize).toNat w.data).getD (index * pageSize + offset).toNat 0 =
      if w.index = index ∧ offset < w.data.length then w.data.getD offset 0
      else content.getD (index * pageSize + offset).toNat 0 := by
  have hpage := in_page_iff w.index index hlength hoffset
  have hstart : 0 ≤ w.index * pageSize := Int.mul_nonneg hw (Int.le_of_lt hsize)
  have hposition : 0 ≤ index * pageSize := Int.mul_nonneg hindex (Int.le_of_lt hsize)
  rw [Bytes.getD_overwrite]
  by_cases hinside : w.index = index ∧ offset < w.data.length
  · obtain ⟨rfl, hlt⟩ := hinside
    rw [if_pos (by omega), if_pos ⟨rfl, hlt⟩]
    congr 1
    omega
  · rw [if_neg (by omega), if_neg hinside]

end Bytes

/-! ### What the directory holds -/

namespace LocalPages

/-- There are nothing but files in the directory of the pages. -/
def OnlyFiles (p : LocalPages) (d : Disk) (place : DiskPlace) : Prop :=
  ∀ name e, d.entry? (place ++ [name]) = some e → p.Fits name ∧ ∃ c m, e = .file c m

variable {p : LocalPages} {d d' : Disk} {place : DiskPlace} {id : Bytes}

theorem EmptyAt.onlyFiles (h : p.EmptyAt d place) : p.OnlyFiles d place := fun name e he => by
  rw [h.entry?_eq] at he
  cases he

theorem OnlyFiles.rewritten (h : p.OnlyFiles d place) {name content : Bytes} (hname : p.Fits name)
    (hd : Disk.Rewritten d d' (place ++ [name]) content) : p.OnlyFiles d' place := by
  intro other e he
  by_cases heq : place ++ [other] = place ++ [name]
  · obtain ⟨m, hentry⟩ := hd.entry?_eq
    rw [heq, hentry] at he
    cases he
    obtain rfl := List.singleton_inj.1 (List.append_cancel_left heq)
    exact ⟨hname, content, m, rfl⟩
  · rw [hd.other _ heq] at he
    exact h other e he

/-- The path of an id without NUL bytes leads to its file, if there is one. -/
theorem RootedAt.status_cases (h : p.RootedAt d place) (hfiles : p.OnlyFiles d place)
    (hid : isFileId id) (hzero : 0 ∉ id) :
    (∃ c m, d.status (p.pathFor id) = .ok (.file c m) ∧
        d.entry? (place ++ [id]) = some (.file c m)) ∨
      (∃ e, d.status (p.pathFor id) = .error e) ∧ d.entry? (place ++ [id]) = none := by
  have hstay : ¬ (id = [] ∨ id = ".") := by
    obtain ⟨hempty, hdot, -⟩ := isFileId_iff.1 hid
    exact not_or.2 ⟨hempty, hdot⟩
  have hlocate := h.locate_pathFor hid
  rw [Bytes.toNul_of_not_mem hzero, Disk.lookIn, if_neg hstay] at hlocate
  simp only [Disk.status, Disk.find, hlocate]
  cases hentry : d.entry? (place ++ [id]) with
  | none =>
    refine .inr ⟨?_, rfl⟩
    split
    · exact ⟨_, rfl⟩
    · exact ⟨_, rfl⟩
    · next hfound =>
      -- Nothing is found if there is no entry.
      split at hfound
      · cases hfound
      · split at hfound <;> cases hfound
  | some e =>
    obtain ⟨⟨-, hlength, hpath⟩, c, m, rfl⟩ := hfiles id e hentry
    rw [if_neg (Nat.not_lt.2 hpath), if_neg (Nat.not_lt.2 hlength)]
    exact .inl ⟨c, m, rfl, rfl⟩

theorem RootedAt.content_eq (h : p.RootedAt d place) (hfiles : p.OnlyFiles d place)
    (hid : isFileId id) (hzero : 0 ∉ id) : p.content d id = d.contentAt (place ++ [id]) := by
  rcases h.status_cases hfiles hid hzero with ⟨c, m, hstatus, hentry⟩ | ⟨⟨e, hstatus⟩, hentry⟩
  · rw [content, hstatus, Disk.contentAt, hentry]
  · rw [content, hstatus, Disk.contentAt, hentry]

end LocalPages

/-! ### The invariant -/

namespace Layout

variable {p : LocalPages} {l : Layout} {place : DiskPlace} {w : PageWrite}

/-- The directory of the pages holds what was written. -/
structure Faithful (p : LocalPages) (place : DiskPlace) (l : Layout) : Prop where
  rootedAt : p.RootedAt l.disk place
  onlyFiles : p.OnlyFiles l.disk place
  withinPage : ∀ w ∈ l.pages, w.WithinPage p.pageSize
  length_eq : ∀ id, 0 ∉ id →
    ((l.disk.contentAt (place ++ [id])).length : Int) = fileEnd p.pageSize id l.pages
  byte_eq : ∀ id, 0 ∉ id → ∀ index, 0 ≤ index → ∀ offset : Nat, (offset : Int) < p.pageSize →
    (l.disk.contentAt (place ++ [id])).getD (index * p.pageSize + offset).toNat 0 =
      byteOf l.pages id index offset

theorem faithful_of_emptyAt {d : Disk} (h : p.EmptyAt d place) : Faithful p place ⟨d, []⟩ := by
  have hcontent : ∀ id, d.contentAt (place ++ [id]) = [] := fun id => by
    rw [Disk.contentAt, h.entry?_eq]
  refine ⟨h.toRootedAt, h.onlyFiles, List.forall_mem_nil _, fun id _ => ?_,
    fun id _ index _ offset _ => ?_⟩
  · rw [hcontent]
    rfl
  · rw [hcontent]
    rfl

/-- A write is taken, or it changes nothing. -/
theorem put_cases (h : p.RootedAt l.disk place) (w : PageWrite) :
    put p l w = l ∨
      ∃ d' base, put p l w = ⟨d', w :: l.pages⟩ ∧
        p.Taken l.disk d' place w.id w.index w.data base := by
  rw [put]
  rcases h.write_cases w.id w.index w.data with ⟨hresult, hstate⟩ | ⟨hresult, base, htaken⟩
  · left
    split
    · next hok => exact absurd hok hresult
    · rw [hstate]
  · right
    rw [hresult]
    exact ⟨_, base, rfl, htaken⟩

/-- Each write keeps the directory faithful. -/
theorem Faithful.put (hsize : 0 < p.pageSize) (h : Faithful p place l) (hw : 0 ∉ w.id) :
    Faithful p place (put p l w) := by
  rcases put_cases h.rootedAt w with hput | ⟨d', base, hput, htaken⟩
  · rw [hput]
    exact h
  obtain ⟨hid, hindex, hlength, rfl, hend⟩ :=
    (LocalPages.baseFor_eq_ok_iff hsize).1 htaken.baseFor_eq
  have hcontent := htaken.contentAt_eq
  rw [Bytes.toNul_of_not_mem hw] at hcontent
  have hstart : 0 ≤ w.index * p.pageSize := Int.mul_nonneg hindex (Int.le_of_lt hsize)
  rw [hput]
  refine ⟨h.rootedAt.rewritten htaken.rewritten,
    h.onlyFiles.rewritten htaken.fits htaken.rewritten, ?_, ?_, ?_⟩
  · exact List.forall_mem_cons.2 ⟨⟨hw, hid, hindex, hlength, hend⟩, h.withinPage⟩
  · intro id hzero
    have hold := h.length_eq id hzero
    dsimp only
    rw [hcontent, fileEnd]
    by_cases hmatch : id = w.id ∧ w.data ≠ []
    · obtain ⟨rfl, hdata⟩ := hmatch
      rw [if_pos ⟨rfl, hdata⟩, if_pos ⟨rfl, hdata⟩, Bytes.length_overwrite]
      omega
    · rw [if_neg hmatch, if_neg fun hand => hmatch ⟨hand.1.symm, hand.2⟩, hold]
  · intro id hzero index hindex' offset hoffset
    have hold := h.byte_eq id hzero index hindex' offset hoffset
    dsimp only
    rw [hcontent]
    by_cases hreaches : w.Reaches id index offset
    · obtain ⟨rfl, hsame, hlt⟩ := hreaches
      have hdata : w.data ≠ [] := List.ne_nil_of_length_pos (Nat.zero_lt_of_lt hlt)
      rw [byteOf_cons_of_reaches ⟨rfl, hsame, hlt⟩, if_pos ⟨rfl, hdata⟩,
        getD_overwrite_page _ hsize hindex hlength hindex' hoffset, if_pos ⟨hsame, hlt⟩]
    · rw [byteOf_cons_of_not_reaches hreaches, ← hold]
      split
      · next hmatch =>
        -- The write is to the same file, but it does not reach this byte.
        rw [hmatch.1, getD_overwrite_page _ hsize hindex hlength hindex' hoffset,
          if_neg fun hinside => hreaches ⟨hmatch.1.symm, hinside⟩]
      · rfl

theorem Faithful.putAll (hsize : 0 < p.pageSize) {ws : List PageWrite} (h : Faithful p place l)
    (hws : ∀ w ∈ ws, 0 ∉ w.id) : Faithful p place (putAll p l ws) := by
  induction ws generalizing l with
  | nil => exact h
  | cons w ws ih =>
    rw [List.forall_mem_cons] at hws
    exact ih (h.put hsize hws.1) hws.2

/-! ### What can be seen -/

/-- Of two writes to a byte of a page the last one counts, and a page is located exactly
    if the file of its id reaches beyond its first byte. -/
structure LastWriteWins (p : LocalPages) (l : Layout) : Prop where
  length_eq : ∀ id, isFileId id → 0 ∉ id →
    ((p.content l.disk id).length : Int) = fileEnd p.pageSize id l.pages
  byte_eq : ∀ id, isFileId id → 0 ∉ id → ∀ index, 0 ≤ index →
    ∀ offset : Nat, (offset : Int) < p.pageSize →
      index * p.pageSize + offset < (p.content l.disk id).length →
        (p.content l.disk id)[(index * p.pageSize + offset).toNat]? =
          some (byteOf l.pages id index offset)
  find_eq : ∀ id, 0 ∉ id → ∀ index,
    p.find l.disk id index =
      if 0 ≤ index ∧ index * p.pageSize < fileEnd p.pageSize id l.pages
        then some (index * p.pageSize) else none

theorem Faithful.lastWriteWins (hsize : 0 < p.pageSize) (h : Faithful p place l) :
    LastWriteWins p l where
  length_eq id hid hzero := by
    rw [h.rootedAt.content_eq h.onlyFiles hid hzero, h.length_eq id hzero]
  byte_eq id hid hzero index hindex offset hoffset hlength := by
    have hbyte := h.byte_eq id hzero index hindex offset hoffset
    have hstart : 0 ≤ index * p.pageSize := Int.mul_nonneg hindex (Int.le_of_lt hsize)
    rw [h.rootedAt.content_eq h.onlyFiles hid hzero] at hlength ⊢
    rw [List.getElem?_eq_getElem (by omega), ← hbyte, List.getD_eq_getElem _ _ (by omega)]
  find_eq id hzero index := by
    by_cases hid : isFileId id
    · have hfile : ∀ e, l.disk.status (p.pathFor id) = .ok e → ∃ c m, e = .file c m := by
        intro e he
        rcases h.rootedAt.status_cases h.onlyFiles hid hzero with ⟨c, m, hok, -⟩ | ⟨⟨e', herror⟩, -⟩
        · exact ⟨c, m, Except.ok.inj (he.symm.trans hok)⟩
        · rw [herror] at he
          cases he
      -- No file reaches beyond the numbers of sixty-four bits.
      have hend : fileEnd p.pageSize id l.pages ≤ int64Max :=
        fileEnd_le (by decide) fun w hw => (h.withinPage w hw).end_le
      rw [LocalPages.find_eq hsize hid hfile, h.rootedAt.content_eq h.onlyFiles hid hzero,
        h.length_eq id hzero]
      congr 1
      simp only [eq_iff_iff]
      omega
    · -- Nothing was ever written under such an id.
      have hnone : p.find l.disk id index = none := LocalPages.find_of_not_isFileId hid
      have hend : fileEnd p.pageSize id l.pages = 0 :=
        fileEnd_eq_zero fun w hw heq => hid (heq ▸ (h.withinPage w hw).isFileId)
      rw [hnone, hend, if_neg]
      rintro ⟨hindex, hlt⟩
      exact absurd hlt (Int.not_lt.2 (Int.mul_nonneg hindex (Int.le_of_lt hsize)))

theorem pages_put (p : LocalPages) (l : Layout) (w : PageWrite) :
    (put p l w).pages = w :: l.pages ∨ (put p l w).pages = l.pages := by
  rw [put]
  split
  · exact .inl rfl
  · exact .inr rfl

theorem mem_pages_putAll {ws : List PageWrite} {v : PageWrite} (hv : v ∈ l.pages) :
    v ∈ (putAll p l ws).pages := by
  induction ws generalizing l with
  | nil => exact hv
  | cons w ws ih =>
    refine ih ?_
    rcases pages_put p l w with hpages | hpages
    · rw [hpages]
      exact List.mem_cons_of_mem _ hv
    · rw [hpages]
      exact hv

/-- Writes to other pages do not matter to the bytes of a page. -/
theorem byteOf_putAll {ws : List PageWrite} {id : Bytes} {index : Int}
    (hws : ∀ w ∈ ws, w.id ≠ id ∨ w.index ≠ index) (offset : Nat) :
    byteOf (putAll p l ws).pages id index offset = byteOf l.pages id index offset := by
  induction ws generalizing l with
  | nil => rfl
  | cons w ws ih =>
    rw [List.forall_mem_cons] at hws
    refine (ih hws.2).trans ?_
    rcases pages_put p l w with hpages | hpages
    · rw [hpages, byteOf_cons_of_not_reaches fun hreaches => ?_]
      exact hws.1.elim (fun hid => hid hreaches.1) fun hindex => hindex hreaches.2.1
    · rw [hpages]

/-- The bytes that were written to a page are within the file. -/
theorem position_lt {v : PageWrite} (pageSize : Int) (hv : v ∈ l.pages) {offset : Nat}
    (hoffset : offset < v.data.length) :
    v.index * pageSize + offset < fileEnd pageSize v.id l.pages := by
  have hdata : v.data ≠ [] := List.ne_nil_of_length_pos (Nat.zero_lt_of_lt hoffset)
  have hend := le_fileEnd pageSize hv hdata
  omega

end Layout

/-- Pages that are written one after the other to an empty directory, with ids free of
    NUL bytes, make up a map in which the last write counts. A write that is not taken
    leaves the disk as it is. A page that was written with data is located from then on,
    and what was written to it is changed by no write to another page. -/
theorem layout_of_writes {p : LocalPages} {d : Disk} {place : DiskPlace} (hsize : 0 < p.pageSize)
    (h : p.EmptyAt d place) (ws : List PageWrite) (hws : ∀ w ∈ ws, 0 ∉ w.id) :
    (Layout.putAll p ⟨d, []⟩ ws).LastWriteWins p ∧
    (∀ id index data,
      (p.write id index data (Layout.putAll p ⟨d, []⟩ ws).disk).result ≠ .ok true →
        (p.write id index data (Layout.putAll p ⟨d, []⟩ ws).disk).state =
          (Layout.putAll p ⟨d, []⟩ ws).disk) ∧
    ∀ v ∈ (Layout.putAll p ⟨d, []⟩ ws).pages, v.data ≠ [] →
      ∀ more : List PageWrite, (∀ w ∈ more, 0 ∉ w.id) →
        p.find (Layout.putAll p ⟨d, []⟩ (ws ++ more)).disk v.id v.index =
          some (v.index * p.pageSize) ∧
        ((∀ w ∈ more, w.id ≠ v.id ∨ w.index ≠ v.index) → ∀ offset < v.data.length,
          (p.content (Layout.putAll p ⟨d, []⟩ (ws ++ more)).disk v.id)[
              (v.index * p.pageSize + offset).toNat]? =
            (p.content (Layout.putAll p ⟨d, []⟩ ws).disk v.id)[
              (v.index * p.pageSize + offset).toNat]?) := by
  have hfaithful := (Layout.faithful_of_emptyAt h).putAll hsize hws
  refine ⟨hfaithful.lastWriteWins hsize, fun id index data hresult => ?_, ?_⟩
  · rcases hfaithful.rootedAt.write_cases id index data with ⟨-, hstate⟩ | ⟨hok, -⟩
    · exact hstate
    · exact absurd hok hresult
  intro v hv hdata more hmore
  have happend : Layout.putAll p ⟨d, []⟩ (ws ++ more) =
      Layout.putAll p (Layout.putAll p ⟨d, []⟩ ws) more := List.foldl_append
  have hwithin := hfaithful.withinPage v hv
  have hbefore := hfaithful.lastWriteWins hsize
  have hafter := (hfaithful.putAll hsize hmore).lastWriteWins hsize
  have hmem : v ∈ (Layout.putAll p (Layout.putAll p ⟨d, []⟩ ws) more).pages :=
    Layout.mem_pages_putAll hv
  rw [happend]
  constructor
  · have hreached := Layout.position_lt p.pageSize hmem (List.length_pos_iff.2 hdata)
    rw [Int.natCast_zero, Int.add_zero] at hreached
    rw [hafter.find_eq v.id hwithin.zero_not_mem, if_pos ⟨hwithin.index_nonneg, hreached⟩]
  · intro hothers offset hoffset
    have hpage : (offset : Int) < p.pageSize := by
      have := hwithin.length_le
      omega
    -- Both sides are the byte that was last written there, as long as no write reaches the page.
    have hbyte : ∀ l : Layout, l.LastWriteWins p → v ∈ l.pages →
        (p.content l.disk v.id)[(v.index * p.pageSize + offset).toNat]? =
          some (byteOf l.pages v.id v.index offset) := by
      intro l hl hmem
      refine hl.byte_eq v.id hwithin.isFileId hwithin.zero_not_mem v.index hwithin.index_nonneg
        offset hpage ?_
      rw [hl.length_eq v.id hwithin.isFileId hwithin.zero_not_mem]
      exact Layout.position_lt p.pageSize hmem hoffset
    rw [hbyte _ hafter hmem, hbyte _ hbefore hv, Layout.byteOf_putAll hothers]

/-- A page that was written twice, and one that is found although it was not written. -/
theorem layout_of_writes_overlapping :
    (Layout.putAll ⟨"/pages", 4⟩ ⟨LocalPages.freshDisk, []⟩
        [⟨"a", 0, "abcd"⟩, ⟨"a", 0, "xy"⟩, ⟨"a", 2, "z"⟩]).LastWriteWins ⟨"/pages", 4⟩ ∧
      (LocalPages.mk "/pages" 4).content (Layout.putAll ⟨"/pages", 4⟩ ⟨LocalPages.freshDisk, []⟩
        [⟨"a", 0, "abcd"⟩, ⟨"a", 0, "xy"⟩, ⟨"a", 2, "z"⟩]).disk "a" = "xycd\x00\x00\x00\x00z" ∧
      (LocalPages.mk "/pages" 4).find (Layout.putAll ⟨"/pages", 4⟩ ⟨LocalPages.freshDisk, []⟩
        [⟨"a", 0, "abcd"⟩, ⟨"a", 0, "xy"⟩, ⟨"a", 2, "z"⟩]).disk "a" 1 = some 4 :=
  ⟨(layout_of_writes (by decide) (LocalPages.emptyAt_freshDisk 4) _ (by decide)).1,
    by decide +kernel, by decide +kernel⟩

end PageServer
