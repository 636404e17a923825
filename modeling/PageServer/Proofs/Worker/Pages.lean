import PageServer.Proofs.Act
import PageServer.Proofs.Numeral
import PageServer.Proofs.Pages.Local
import PageServer.Server.Installation

/-!
# Reading back what was written

A write is always answered with 200, and only if it is said to have succeeded the page
was written (`PageDesk.write_yields`). A read of a page comes to what is read where the page
is kept (`PageDesk.read_result`), so that a page that is there is read from the file of its
id (`PageDesk.read_yields`).

After a write the page is read with what stood behind the written bytes in it before
(`PageDesk.read_after_write`). The store keeps the bytes of a file and no lengths of
pages, so that a page which is written again with fewer bytes keeps its end: what is
read need not be what was written last (`PageDesk.not_only_written`).
-/

namespace PageServer.Worker

open Http

variable {p : LocalPages} {files : FileSystem Installation} {s : Installation} {place : DiskPlace}
  {request : Request} {target : Target} {address : PageAddress}

/-- The outcome of a write tells in its JSON object whether it succeeded. -/
theorem success_of_json_eq {w w' : WriteOutcome} (h : w.json = w'.json) :
    w.success = w'.success := by
  -- The objects differ in the first letter of `true` or `false`.
  have hletter : ∀ w : WriteOutcome, w.json[11]? = some (if w.success then 116 else 102) := by
    rintro ⟨success, message⟩
    cases success <;> rfl
  have hsame := congrArg (·[11]?) h
  simp only [hletter, Option.some.injEq] at hsame
  revert hsame
  cases w.success <;> cases w'.success <;> decide

/-- What is said of an answer that cannot be held. -/
def cannotHold : Failure := .logic "basic_string::_M_create"

namespace PageDesk

/-- The desk for the pages in a directory of the disk. -/
def ofLocal (files : FileSystem Installation) (p : LocalPages) : PageDesk Installation where
  files
  pages := p.store Installation.diskPart
  metrics := Installation.metricsPart

/-! ### Writes -/

variable {σ : Type} {desk : PageDesk σ} {t : σ}

theorem writeFailed_yields (request : Request) (e : Failure) (t : σ) :
    (writeFailed request e : Act σ WriteOutcome).Yields t
      fun outcome t' => outcome.success = false ∧ t' = t := by
  unfold writeFailed
  split
  · exact Act.yields_pure ⟨rfl, rfl⟩
  · exact Act.yields_bind (Act.yields_record (Act.yields_pure ⟨rfl, rfl⟩))

/-- The page was written for the request, and this is the state after it. -/
def Wrote (desk : PageDesk σ) (request : Request) (target : Target) (t t' : σ) : Prop :=
  ∃ address, PageAddress.ofTarget target = .ok address ∧
    (desk.pages.write address.id address.index request.body t).result = .ok true ∧
    t' = (desk.pages.write address.id address.index request.body t).state

/-- No page was written for the request, and this is the state after it. The store is not
    asked to write one without a body and an address. -/
def Declined (desk : PageDesk σ) (request : Request) (target : Target) (t t' : σ) : Prop :=
  (request.body = [] ∨ ∀ address, PageAddress.ofTarget target ≠ .ok address) ∧ t' = t ∨
    ∃ address, PageAddress.ofTarget target = .ok address ∧
      (desk.pages.write address.id address.index request.body t).result ≠ .ok true ∧
      t' = (desk.pages.write address.id address.index request.body t).state

theorem store_ends (desk : PageDesk σ) (request : Request) (target : Target) (t : σ) :
    (desk.store request target).Ends t
      (fun outcome t' => if outcome.success then Wrote desk request target t t'
        else Declined desk request target t t')
      fun _ t' => Declined desk request target t t' := by
  rw [PageDesk.store]
  rcases haddress : PageAddress.ofTarget target with e | address
  · refine Act.ends_bind (Act.ends_ofExcept (fun _ h => by cases h) fun _ _ => ?_)
    exact .inl ⟨.inr fun address h => (by rw [haddress] at h; cases h), rfl⟩
  refine Act.ends_bind (Act.Yields.ends (Act.yields_ofExcept rfl ?_))
  refine Act.ends_bind ?_
  rw [Act.Ends]
  rcases hwrite : (desk.pages.write address.id address.index request.body t).result with e | written
  · exact .inr ⟨address, haddress, fun h => (by rw [hwrite] at h; cases h), rfl⟩
  cases written with
  | false =>
    exact Act.ends_pure (.inr ⟨address, haddress, fun h => (by rw [hwrite] at h; cases h), rfl⟩)
  | true => exact Act.ends_pure ⟨address, haddress, hwrite, rfl⟩

/-- A write is answered with 200, and with whether the page was written. -/
theorem write_ran (desk : PageDesk σ) (request : Request) (target : Target) (t : σ) :
    (desk.write request target).Yields t fun r t' =>
      ∃ outcome : WriteOutcome, r = Response.json 200 outcome.json ∧
        if outcome.success then request.body ≠ [] ∧ Wrote desk request target t t'
        else Declined desk request target t t' := by
  rw [PageDesk.write]
  split
  · next hbody =>
    exact Act.yields_bind (Act.yields_pure (Act.yields_pure
      ⟨_, rfl, .inl ⟨.inl (List.isEmpty_iff.1 hbody), rfl⟩⟩))
  next hbody =>
  have hbody : request.body ≠ [] := mt List.isEmpty_iff.2 hbody
  refine Act.yields_bind (Act.yields_recover ((store_ends desk request target t).mono ?_ ?_))
  · intro outcome t' hran
    refine Act.yields_pure ⟨outcome, rfl, ?_⟩
    split at hran
    · next hsuccess => rw [if_pos hsuccess]; exact ⟨hbody, hran⟩
    · next hsuccess => rw [if_neg hsuccess]; exact hran
  · intro e t' hdeclined
    refine (writeFailed_yields request e t').mono ?_
    rintro outcome _ ⟨hfailed, rfl⟩
    exact Act.yields_pure ⟨outcome, rfl, by rw [if_neg (by simp [hfailed])]; exact hdeclined⟩

/-- A write is answered with 200. If it is said to have succeeded, the page was
    written. -/
theorem write_yields (desk : PageDesk σ) (request : Request) (target : Target) (t : σ) :
    (desk.write request target).Yields t fun r t' =>
      ∃ outcome : WriteOutcome, r = Response.json 200 outcome.json ∧
        (outcome.success → request.body ≠ [] ∧ Wrote desk request target t t') := by
  refine (write_ran desk request target t).mono ?_
  rintro r t' ⟨outcome, houtcome, hran⟩
  exact ⟨outcome, houtcome, fun hsuccess => by rwa [if_pos hsuccess] at hran⟩

/-! ### Reads -/

/-- Where a page in a directory of the disk is said to be. -/
def placeOf (p : LocalPages) (id : Bytes) (base : Int) : PageLocation Installation :=
  ⟨Byte.slash :: id, base, some ((LocalFiles.ofRoot p.root).onDisk.within Installation.diskPart)⟩

theorem locate_yields (p : LocalPages) (id : Bytes) (index : Int) (s : Installation) :
    ((p.store Installation.diskPart).locate id index).Yields s fun found s' =>
      found = (p.find s.disk id index).map (placeOf p id) ∧ s' = s := ⟨_, rfl, rfl, rfl⟩

/-- The state after so much was added to a counter. -/
def counted (s : Installation) (name : Bytes) (n : Int) : Installation :=
  { s with metrics := s.metrics.add name n }

theorem count_yields (files : FileSystem Installation) (p : LocalPages) (name : Bytes) (n : Int)
    (s : Installation) :
    ((ofLocal files p).count name n).Yields s fun _ s' => s' = counted s name n := ⟨(), rfl, rfl⟩

/-- What a client is told of a page that has no bytes where it is read. -/
def noData (address : PageAddress) (offset : Int) : HttpError :=
  .pageNotFound ("Page " ++ Numeral.ofInt address.index ++ " of " ++ address.id ++
    " has no data at offset " ++ Numeral.ofInt offset)

/-- What comes of the bytes of a page, or of the failure to read them. -/
def readOutcome (address : PageAddress) (offset : Int) :
    Except Failure (Option Bytes) → Except Failure Bytes
  | .ok (some bytes) => .ok bytes
  | .ok none => .error (.http (noData address offset))
  | .error (.noSuchPath path) =>
    .error (.http (.pageNotFound (Failure.noSuchPath path).message))
  | .error (.fileSystem reason) =>
    .error (.http (.backend ("Failed to read page: " ++ (Failure.fileSystem reason).message)))
  | .error e => .error e

/-- What comes of reading where a page is kept. -/
theorem readAt_result (p : LocalPages) (files : FileSystem Installation) (address : PageAddress)
    (base offset length : Int) (s : Installation) :
    (readAt files address (placeOf p address.id base) offset length s).result =
      readOutcome address offset
        (p.readAt s.disk address.id (wrapInt64 (base + offset)) length) := by
  -- The handler opens the file of the page and reads it, as the pages do.
  have hcalls : ((do
      let file ← ((LocalFiles.ofRoot p.root).onDisk.within Installation.diskPart).openFile
        (Byte.slash :: address.id)
      ((LocalFiles.ofRoot p.root).onDisk.within Installation.diskPart).read file
        (wrapInt64 (base + offset)) length : Act Installation (Option Bytes)) s).result =
      p.readAt s.disk address.id (wrapInt64 (base + offset)) length := by
    rw [LocalPages.readAt]
    cases hopen : (LocalFiles.ofRoot p.root).openFile s.disk (Byte.slash :: address.id) with
    | error e => rw [Act.bind_of_error (e := e) hopen]; rfl
    | ok file => rw [Act.bind_of_ok (v := file) hopen]; rfl
  refine Act.result_eq_iff.2 (Act.ends_bind (Act.ends_recover ?_))
  refine (Act.result_eq_iff.1 hcalls).mono (fun found s' hfound => ?_) fun e s' he => ?_
  · rw [hfound]
    cases found with
    | some bytes => exact Act.ends_pure rfl
    | none => exact Act.ends_throw rfl
  · rw [he]
    cases e with
    | noSuchPath path => exact Act.ends_throw rfl
    | fileSystem reason =>
      exact Act.ends_bind (Act.Yields.ends (Act.yields_record (Act.ends_throw rfl)))
    | _ => exact Act.ends_throw rfl

/-- The answer with bytes of a page. -/
def pageResponse (bytes : Bytes) : Response :=
  ((Response.withStatus {} 200).withType "text/plain").withContent (.streamed bytes)

/-- What a client is told of a page that is not there. -/
def notCached (address : PageAddress) : HttpError :=
  .pageNotFound ("Page " ++ Numeral.ofInt address.index ++ " of " ++ address.id ++ " is not cached")

/-- How a read of a page ends, if the target makes sense. The bytes that are asked for are counted
    before the page is looked for, and again when they were read. -/
theorem read_ends {offset length : Int} {Q : Response → Installation → Prop}
    {E : Failure → Installation → Prop} (files : FileSystem Installation) (request : Request)
    (haddress : PageAddress.ofTarget target = .ok address)
    (hrange : rangeOf target p.pageSize = .ok (offset, length)) (s : Installation)
    (hmissing : p.find s.disk address.id address.index = none →
      E (.http (notCached address)) (counted s bytesRequested length))
    (hmuch : ∀ base, p.find s.disk address.id address.index = some base → maxAnswer < length →
      E cannotHold (counted s bytesRequested length))
    (hread : ∀ base, p.find s.disk address.id address.index = some base → ¬ maxAnswer < length →
      (readAt files address (placeOf p address.id base) offset length).Ends
        (counted s bytesRequested length)
        (fun bytes s' => Q (pageResponse bytes) (counted s' bytesServed length)) E) :
    ((ofLocal files p).read request target).Ends s Q E := by
  rw [PageDesk.read]
  refine Act.ends_bind (Act.Yields.ends
    (Act.yields_ofExcept (congrArg (Except.mapError _) haddress) ?_))
  refine Act.ends_bind (Act.Yields.ends
    (Act.yields_ofExcept (congrArg (Except.mapError _) hrange) ?_))
  refine Act.ends_bind ((count_yields files p bytesRequested length s).mono ?_).ends
  rintro _ _ rfl
  refine Act.ends_bind ((locate_yields p address.id address.index _).mono ?_).ends
  rintro _ _ ⟨rfl, rfl⟩
  have hdisk : (counted s bytesRequested length).disk = s.disk := rfl
  rw [hdisk]
  cases hfind : p.find s.disk address.id address.index with
  | none => exact Act.ends_throw (hmissing hfind)
  | some base =>
    simp only [Option.map_some]
    split
    · next hmax =>
      -- A length that no answer can hold: the page is found, and the handler fails.
      have hthrow : (throw cannotHold : Act Installation Unit).Ends
          (counted s bytesRequested length) (fun _ _ => False) fun e s' =>
            e = cannotHold ∧ s' = counted s bytesRequested length := Act.ends_throw ⟨rfl, rfl⟩
      refine Act.ends_bind (hthrow.mono (fun _ _ => False.elim) ?_)
      rintro _ _ ⟨rfl, rfl⟩
      exact hmuch base hfind hmax
    · next hmax =>
      refine Act.ends_bind ((hread base hfind hmax).mono (fun bytes s' hbytes => ?_) fun _ _ => id)
      refine Act.ends_bind ((count_yields files p bytesServed length s').mono ?_).ends
      rintro _ _ rfl
      exact Act.ends_pure hbytes

/-- What comes of reading a page, if the target makes sense. -/
theorem read_result {offset length : Int} (files : FileSystem Installation) (request : Request)
    (haddress : PageAddress.ofTarget target = .ok address)
    (hrange : rangeOf target p.pageSize = .ok (offset, length)) (s : Installation) :
    ((ofLocal files p).read request target s).result =
      match p.find s.disk address.id address.index with
      | none => .error (.http (notCached address))
      | some base =>
        if maxAnswer < length then .error cannotHold
        else (readOutcome address offset
          (p.readAt s.disk address.id (wrapInt64 (base + offset)) length)).map pageResponse := by
  refine Act.result_eq_iff.2 (read_ends files request haddress hrange s (fun hnone => ?_)
    (fun base hfind hmax => ?_) fun base hfind hmax => ?_)
  · rw [hnone]
  · rw [hfind]
    exact if_pos hmax
  · have hread := Act.result_eq_iff.1 (readAt_result p files address base offset length
      (counted s bytesRequested length))
    rw [hfind]
    dsimp only
    rw [if_neg hmax]
    refine hread.mono (fun bytes s' hbytes => ?_) fun e s' he => ?_
    · exact congrArg (Except.map pageResponse) hbytes
    · exact congrArg (Except.map pageResponse) he

theorem rangeOf_of_none (pageSize : Int) (hoffset : target.get? "offset" = none)
    (hlength : target.get? "length" = none) : rangeOf target pageSize = .ok (0, pageSize) := by
  have hnone : ∀ key, target.get? key = none → numberOf target key = .ok none := by
    intro key hkey
    rw [numberOf, Target.number?, hkey]
  rw [rangeOf, givenRange, hnone _ hoffset, hnone _ hlength]
  simp only [bind, Except.bind, pure, Except.pure, Int.sub_zero, clampLength, ite_self]

/-- A page that is asked for without an offset and a length is read as a whole. -/
theorem read_yields {s : Installation} {base : Int} {bytes : Bytes} (request : Request)
    (hsize : 0 < p.pageSize) (hanswer : p.pageSize ≤ maxAnswer)
    (haddress : PageAddress.ofTarget target = .ok address)
    (hoffset : target.get? "offset" = none) (hlength : target.get? "length" = none)
    (hfind : p.find s.disk address.id address.index = some base)
    (hread : p.readAt s.disk address.id base p.pageSize = .ok (some bytes)) :
    ((ofLocal files p).read request target).Yields s fun r _ =>
      r.status = 200 ∧ r.content.bytes = bytes := by
  have hresult := read_result files request haddress (rangeOf_of_none p.pageSize hoffset hlength) s
  rw [hfind] at hresult
  dsimp only at hresult
  obtain ⟨hstart, hmax, -⟩ := LocalPages.base_bounds hsize hfind
  rw [if_neg (Int.not_lt.2 hanswer), Int.add_zero, wrapInt64_of_le hstart hmax, hread] at hresult
  exact ⟨_, hresult, rfl, rfl⟩

/-! ### Reading back -/

/-- After a write that is said to have succeeded, the page is read as the written bytes
    and what the file held behind them in the page before. These are just the written
    bytes if they fill the page, or if the file held nothing behind them.

    The page has to be one that can be answered as a whole, and to end within numbers of
    sixty-four bits. -/
theorem read_after_write {s s' : Installation} (request' : Request) {target' : Target}
    {response : Response} {message : Bytes} (hsize : 0 < p.pageSize)
    (hroot : p.RootedAt s.disk place) (haddress : PageAddress.ofTarget target = .ok address)
    (hresponse : ((ofLocal files p).write request target s).result = .ok response)
    (hsuccess : response.content.bytes = WriteOutcome.json ⟨true, message⟩)
    (hdisk : s'.disk = ((ofLocal files p).write request target s).state.disk)
    (haddress' : PageAddress.ofTarget target' = .ok address)
    (hoffset : target'.get? "offset" = none) (hlength : target'.get? "length" = none)
    (hanswer : p.pageSize ≤ maxAnswer)
    (hend : address.index * p.pageSize + p.pageSize ≤ int64Max) :
    ((ofLocal files p).read request' target').Yields s' fun response' _ =>
      response'.status = 200 ∧
      response'.content.bytes = request.body ++
        ((p.content s.disk address.id).drop
          ((address.index * p.pageSize).toNat + request.body.length)).take
            (p.pageSize.toNat - request.body.length) ∧
      (response'.content.bytes = request.body ↔ request.body.length = p.pageSize ∨
        (p.content s.disk address.id).length ≤
          address.index * p.pageSize + request.body.length) := by
  obtain ⟨response₁, hresponse₁, outcome, houtcome, hwrote⟩ :=
    write_yields (ofLocal files p) request target s
  obtain rfl := Except.ok.inj (hresponse₁.symm.trans hresponse)
  rw [houtcome] at hsuccess
  obtain ⟨hbody, address₁, haddress₁, hresult, hstate⟩ := hwrote (success_of_json_eq hsuccess)
  obtain rfl := Except.ok.inj (haddress₁.symm.trans haddress)
  -- What the write did to the disk.
  rw [hstate] at hdisk
  rcases hroot.write_cases address₁.id address₁.index request.body with
    ⟨hnot, -⟩ | ⟨-, base, htaken⟩
  · exact absurd hresult hnot
  have hbase := ((LocalPages.baseFor_eq_ok_iff hsize).1 htaken.baseFor_eq).2.2
  have hdisk : s'.disk = (p.write address₁.id address₁.index request.body s.disk).state := hdisk
  have hfind := htaken.find_eq hsize hroot hbody
  have hread := htaken.readAt_eq hsize hroot hbody (by omega)
  rw [← hdisk] at hfind hread
  refine (read_yields request' hsize hanswer haddress' hoffset hlength hfind hread).mono ?_
  rintro response' _ ⟨hstatus, hbytes⟩
  obtain ⟨hsmall, rfl, hlast⟩ := hbase
  refine ⟨hstatus, hbytes, ?_⟩
  have hstart : 0 ≤ address₁.index * p.pageSize := by
    have hindex := ((LocalPages.baseFor_eq_ok_iff hsize).1 htaken.baseFor_eq).2.1
    exact Int.mul_nonneg hindex (Int.le_of_lt hsize)
  rw [hbytes, List.append_right_eq_self, List.take_eq_nil_iff, List.drop_eq_nil_iff]
  omega

/-! ### A page that was written twice -/

/-- A desk for pages of four bytes. -/
def smallDesk : PageDesk Installation :=
  ofLocal ((LocalFiles.ofRoot "/").onDisk.within Installation.diskPart) ⟨"/pages", 4⟩

/-- The target of the first page of `a`. -/
def firstPage : Target := ⟨"file", ["a", "page", "0"], .empty⟩

/-- The first page of `a` was written as `abcd`. -/
def filledOnce : Installation :=
  (smallDesk.write { body := "abcd" } firstPage { disk := LocalPages.freshDisk }).state

theorem rootedAt_filledOnce :
    LocalPages.RootedAt ⟨"/pages", 4⟩ filledOnce.disk [ascii "pages"] :=
  (LocalPages.emptyAt_freshDisk 4).toRootedAt.write "a" 0 "abcd"

/-- Writing `xy` then is said to succeed. -/
theorem write_filledOnce : ∃ response,
    (smallDesk.write { body := "xy" } firstPage filledOnce).result = .ok response ∧
      response.content.bytes = WriteOutcome.json ⟨true, "Page written successfully"⟩ := by
  obtain ⟨response, hresponse, -⟩ := write_yields smallDesk { body := "xy" } firstPage filledOnce
  have hbytes : (smallDesk.write { body := "xy" } firstPage filledOnce).result.toOption.map
      (·.content.bytes) = some (WriteOutcome.json ⟨true, "Page written successfully"⟩) := by
    decide +kernel
  rw [hresponse] at hbytes
  exact ⟨response, hresponse, Option.some.inj hbytes⟩

/-- The end of `abcd` is read behind `xy`. -/
theorem read_after_write_short :
    (smallDesk.read {} firstPage).Yields
      (smallDesk.write { body := "xy" } firstPage filledOnce).state fun response _ =>
        response.status = 200 ∧ response.content.bytes = "xycd" := by
  obtain ⟨response, hresponse, hsuccess⟩ := write_filledOnce
  have haddress : PageAddress.ofTarget firstPage = .ok ⟨"a", 0⟩ := by decide +kernel
  refine (read_after_write {} (by decide) rootedAt_filledOnce haddress hresponse hsuccess rfl
    haddress rfl rfl (by decide) (by decide)).mono ?_
  rintro response' _ ⟨hstatus, hbytes, -⟩
  exact ⟨hstatus, hbytes.trans (by decide +kernel)⟩

/-- What is read need not be what was written last. -/
theorem not_only_written :
    ¬ ∀ (p : LocalPages) (files : FileSystem Installation) (place : DiskPlace)
        (s s' : Installation) (request request' : Request) (target target' : Target)
        (address : PageAddress) (response : Response) (message : Bytes),
      0 < p.pageSize → p.RootedAt s.disk place → PageAddress.ofTarget target = .ok address →
      ((ofLocal files p).write request target s).result = .ok response →
      response.content.bytes = WriteOutcome.json ⟨true, message⟩ →
      s'.disk = ((ofLocal files p).write request target s).state.disk →
      PageAddress.ofTarget target' = .ok address → target'.get? "offset" = none →
      target'.get? "length" = none →
      ((ofLocal files p).read request' target').Yields s' fun response' _ =>
        response'.status = 200 ∧ response'.content.bytes = request.body := by
  intro hall
  obtain ⟨response, hresponse, hsuccess⟩ := write_filledOnce
  have haddress : PageAddress.ofTarget firstPage = .ok ⟨"a", 0⟩ := by decide +kernel
  obtain ⟨response', hresponse', -, hbytes⟩ := hall _ _ _ filledOnce _ _ {} firstPage firstPage
    _ _ _ (by decide) rootedAt_filledOnce haddress hresponse hsuccess rfl haddress rfl rfl
  -- The page that was there is longer than the body that was written over it.
  have hread : (smallDesk.read {} firstPage
      (smallDesk.write { body := "xy" } firstPage filledOnce).state).result.toOption.map
        (·.content.bytes) = some "xycd" := by decide +kernel
  have hresponse' : (smallDesk.read {} firstPage
      (smallDesk.write { body := "xy" } firstPage filledOnce).state).result = .ok response' :=
    hresponse'
  rw [hresponse'] at hread
  exact absurd (hbytes.symm.trans (Option.some.inj hread)) (by decide)

end PageDesk

end PageServer.Worker
