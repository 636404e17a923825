import PageServer.Proofs.Worker.Reads

/-!
# What a page write does

Whatever is asked for, a page write is answered with 200, and what came of it is said in
the body (`PageDesk.write_inBand`). Which writes are admitted depends on the body, the
target and the page size alone (`Admits`). A write that is said to have succeeded changed
just the bytes of its page that it covers (`LocalPages.Patched`), and any other left the
state as it was: all that is refused is refused before the file of the id is opened.
-/

namespace PageServer

namespace LocalPages

variable {p : LocalPages} {d d' : Disk} {id : Bytes} {index base : Int} {data : Bytes}

/-- The disk lets the file of an id be opened for writing. -/
def Opens (p : LocalPages) (d : Disk) (id : Bytes) : Prop :=
  ∃ opened, d.openForWriting (p.pathFor id) = .ok opened

/-- The file of an id has the bytes from a position on, zeros in front of them where it
    ended before, and it is as it was elsewhere, as is everything else on the disk. -/
structure Patched (p : LocalPages) (d d' : Disk) (id : Bytes) (position : Nat) (data : Bytes) :
    Prop where
  file : ∃ place m, d'.find true (p.pathFor id) = .ok (place, .file (p.content d' id) m) ∧
    ∀ other, other ≠ place → d'.entry? other = d.entry? other
  length_eq : (p.content d' id).length = max (p.content d id).length (position + data.length)
  written : ∀ k, position ≤ k → k < position + data.length →
    (p.content d' id).getD k 0 = data.getD (k - position) 0
  kept : ∀ k, k < position ∨ position + data.length ≤ k →
    (p.content d' id).getD k 0 = (p.content d id).getD k 0

theorem content_of_find {place : DiskPlace} {c : Bytes} {m : Int}
    (h : d.find true (p.pathFor id) = .ok (place, .file c m)) : p.content d id = c := by
  rw [content, Disk.status, h]
  rfl

/-- What the file holds that opening the path of an id leads to. -/
theorem content_of_forFile {place : DiskPlace} {spot : Disk.Spot}
    (hlocate : d.locate true (p.pathFor id) = .ok spot) (hspot : spot.ForFile place) :
    p.content d id = d.contentAt place := by
  cases spot with
  | found there entry =>
    obtain ⟨rfl, c, m, rfl⟩ := hspot
    have hfind := Disk.find_eq_ok_iff.2 hlocate
    rw [content_of_find hfind, Disk.contentAt, Disk.entry?_of_find hfind]
  | absent directory name slashed =>
    obtain ⟨rfl, -⟩ := hspot
    have hentry : d.entry? (directory ++ [name]) = none :=
      Disk.holds_of_walk (Disk.locate_eq_ok_iff.1 hlocate).2.2
    rw [content, Disk.status, Disk.find, hlocate, Disk.contentAt, hentry]
    rfl

/-- A page is written just if it may be, and its file can be opened. -/
theorem write_result_iff : (p.write id index data d).result = .ok true ↔
    (∃ base, p.baseFor id index data = .ok base) ∧ p.Opens d id := by
  rw [LocalPages.write, Opens]
  rcases hbase : p.baseFor id index data with e | base
  · simp
  rcases hopen : d.openForWriting (p.pathFor id) with e | opened
  · simp
  · simp

/-- A write without success leaves the disk as it is. -/
theorem write_state_of_ne (h : (p.write id index data d).result ≠ .ok true) :
    (p.write id index data d).state = d := by
  rw [LocalPages.write] at h ⊢
  split
  · rfl
  split
  · rfl
  next hbase _ _ _ hopen => simp only [hbase, hopen, ne_eq, not_true_eq_false] at h

/-- A write with success changes the bytes from the start of the page on. -/
theorem patched_write (h : (p.write id index data d).result = .ok true) (hdata : data ≠ [])
    (hbase : p.baseFor id index data = .ok base) :
    p.Patched d (p.write id index data d).state id base.toNat data := by
  obtain ⟨-, ⟨place, d₁⟩, hopen⟩ := write_result_iff.1 h
  obtain ⟨hopened, spot, hlocate, hspot⟩ := Disk.openForWriting_eq_ok hopen
  have hstate : (p.write id index data d).state = d₁.write place base.toNat data := by
    simp only [LocalPages.write, hbase, hopen]
  have hwritten := hopened.write base.toNat data
  rw [if_neg hdata, ← content_of_forFile hlocate hspot, ← hstate] at hwritten
  obtain ⟨m, hentry⟩ := hwritten.entry?_eq
  -- The path leads to the file that was written to.
  have hfind := Disk.find_of_sameWays hlocate hspot hwritten.sameWays hentry
  have hcontent := content_of_find hfind
  refine ⟨⟨place, m, hcontent ▸ hfind, hwritten.other⟩, ?_, fun k hfrom hto => ?_, fun k hk => ?_⟩
  · rw [hcontent, Bytes.length_overwrite]
  · rw [hcontent, Bytes.getD_overwrite, if_pos ⟨hfrom, hto⟩]
  · rw [hcontent, Bytes.getD_overwrite, if_neg (by omega)]

end LocalPages

namespace Worker

open Http

variable {p : LocalPages} {target : Target} {body : Bytes} {address : PageAddress}

/-- The body may be written as the page that the target names. -/
structure Admits (p : LocalPages) (target : Target) (body : Bytes) (address : PageAddress) :
    Prop where
  segments : ∃ index rest, target.segments = address.id :: "page" :: index :: rest ∧
    Numeral.Int64Text index address.index
  index_nonneg : 0 ≤ address.index
  isFileId : isFileId address.id
  body_ne : body ≠ []
  length_le : body.length ≤ p.pageSize
  end_le : address.index * p.pageSize + body.length ≤ int64Max

theorem admits_iff (hsize : 0 < p.pageSize) : Admits p target body address ↔ body ≠ [] ∧
    PageAddress.ofTarget target = .ok address ∧
      p.baseFor address.id address.index body = .ok (address.index * p.pageSize) := by
  rw [PageDesk.ofTarget_eq_ok_iff, LocalPages.baseFor_eq_ok_iff hsize]
  constructor
  · rintro ⟨hsegments, hindex, hid, hbody, hlength, hend⟩
    exact ⟨hbody, ⟨hsegments, hindex⟩, hid, hindex, hlength, rfl, hend⟩
  · rintro ⟨hbody, ⟨hsegments, hindex⟩, hid, -, hlength, -, hend⟩
    exact ⟨hsegments, hindex, hid, hbody, hlength, hend⟩

namespace PageDesk

/-- A page write is answered with 200. It is said to have succeeded just if it is admitted,
    as long as the disk lets the file be opened; then the bytes of the body are those of the
    file from the start of the page on, and else nothing has changed. -/
theorem write_inBand (hsize : 0 < p.pageSize) (files : FileSystem Installation) (request : Request)
    (target : Target) (s : Installation) :
    ((ofLocal files p).write request target).Yields s fun r s' =>
      ∃ outcome : WriteOutcome, r = Response.json 200 outcome.json ∧
        ((∀ address, Admits p target request.body address → p.Opens s.disk address.id) →
          (outcome.success ↔ ∃ address, Admits p target request.body address)) ∧
        (outcome.success → ∃ address, Admits p target request.body address ∧
          p.Patched s.disk s'.disk address.id (address.index * p.pageSize).toNat request.body) ∧
        (outcome.success = false → s' = s) := by
  have hwrite : ∀ address : PageAddress,
      ((ofLocal files p).pages.write address.id address.index request.body s).result =
        (p.write address.id address.index request.body s.disk).result := fun _ => rfl
  refine (write_ran (ofLocal files p) request target s).mono ?_
  rintro r s' ⟨outcome, houtcome, hran⟩
  refine ⟨outcome, houtcome, ?_⟩
  by_cases hsuccess : outcome.success
  · rw [if_pos hsuccess] at hran
    obtain ⟨hbody, address, haddress, hresult, rfl⟩ := hran
    rw [hwrite] at hresult
    -- A page that was taken lies where its index says.
    obtain ⟨⟨base, hbase⟩, -⟩ := LocalPages.write_result_iff.1 hresult
    obtain rfl := ((LocalPages.baseFor_eq_ok_iff hsize).1 hbase).2.2.2.1
    have hadmits := (admits_iff hsize).2 ⟨hbody, haddress, hbase⟩
    exact ⟨fun _ => iff_of_true hsuccess ⟨address, hadmits⟩,
      fun _ => ⟨address, hadmits, LocalPages.patched_write hresult hbody hbase⟩,
      fun hfailed => absurd hsuccess (by simp [hfailed])⟩
  · rw [if_neg hsuccess] at hran
    refine ⟨fun hopens => iff_of_false hsuccess ?_, fun h => absurd h hsuccess, fun _ => ?_⟩
    · rintro ⟨address, hadmits⟩
      obtain ⟨hbody, haddress, hbase⟩ := (admits_iff hsize).1 hadmits
      rcases hran with ⟨hnone, -⟩ | ⟨address', haddress', hresult, -⟩
      · exact hnone.elim hbody fun hnone => hnone _ haddress
      · obtain rfl := Except.ok.inj (haddress.symm.trans haddress')
        exact hresult (LocalPages.write_result_iff.2 ⟨⟨_, hbase⟩, hopens _ hadmits⟩)
    · rcases hran with ⟨-, rfl⟩ | ⟨address, -, hresult, rfl⟩
      · rfl
      · rw [hwrite] at hresult
        have hstate := LocalPages.write_state_of_ne hresult
        exact congrArg (fun d => { s with disk := d }) hstate

/-- `xy` is written over the front of `abcd`. -/
theorem write_inBand_short :
    (smallDesk.write { body := "xy" } firstPage).Yields filledOnce fun _ s' =>
      (LocalPages.content ⟨"/pages", 4⟩ s'.disk "a").length = 4 ∧
        ∀ k, (LocalPages.content ⟨"/pages", 4⟩ s'.disk "a").getD k 0 = (ascii "xycd").getD k 0 := by
  have haddress : PageAddress.ofTarget firstPage = .ok ⟨"a", 0⟩ := by decide +kernel
  have hadmits : Admits ⟨"/pages", 4⟩ firstPage "xy" ⟨"a", 0⟩ :=
    (admits_iff (by decide)).2 ⟨by decide, haddress, by decide +kernel⟩
  have honly : ∀ address, Admits ⟨"/pages", 4⟩ firstPage "xy" address → address = ⟨"a", 0⟩ :=
    fun address h => Except.ok.inj (((admits_iff (by decide)).1 h).2.1.symm.trans haddress)
  have hopens : LocalPages.Opens ⟨"/pages", 4⟩ filledOnce.disk "a" := by
    have hopen : (filledOnce.disk.openForWriting (LocalPages.pathFor ⟨"/pages", 4⟩ "a")).isOk := by
      decide +kernel
    rcases h : filledOnce.disk.openForWriting (LocalPages.pathFor ⟨"/pages", 4⟩ "a") with e | opened
    · rw [h] at hopen
      cases hopen
    · exact ⟨opened, h⟩
  have hcontent : LocalPages.content ⟨"/pages", 4⟩ filledOnce.disk "a" = "abcd" := by decide +kernel
  refine (write_inBand (p := ⟨"/pages", 4⟩) (by decide) smallDesk.files { body := "xy" } firstPage
    filledOnce).mono ?_
  rintro r s' ⟨outcome, -, hadmitted, hpatched, -⟩
  have hsuccess := (hadmitted fun address h => honly address h ▸ hopens).2 ⟨_, hadmits⟩
  obtain ⟨address, haddress', hpatched⟩ := hpatched hsuccess
  obtain rfl := honly address haddress'
  refine ⟨by rw [hpatched.length_eq, hcontent]; rfl, fun k => ?_⟩
  by_cases hk : k < 2
  · rw [hpatched.written k (Nat.zero_le k) hk]
    interval_cases k <;> rfl
  · rw [hpatched.kept k (.inr (Nat.not_lt.1 hk)), hcontent]
    obtain ⟨k, rfl⟩ := Nat.exists_eq_add_of_le (Nat.not_lt.1 hk)
    rw [Nat.add_comm]
    rfl

end PageDesk

end Worker

end PageServer
