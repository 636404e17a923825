import PageServer.Proofs.Files.Failing
import PageServer.Proofs.Http.Routing
import PageServer.Proofs.Numeral
import PageServer.Proofs.Worker.Pages

/-!
# The bytes that a page request is for

A target *asks* for bytes of a page: a page is named by its segments, and an offset and a
length are chosen by its parameters or left to what is usual (`PageDesk.Asks`). The desk
reads just these from it, or finds it malformed (`PageDesk.asks_iff`).

Bytes that are asked for are those of the file in which the page is kept, from the offset
in the page on and up to the end of the page or of the file, and they are missing if the
file ends in front of the first of them (`PageDesk.read_outcome`).
-/

namespace PageServer.Worker

open Http

variable {t : Target} {address : PageAddress} {key : Bytes} {pageSize offset length n : Int}

/-! ### Numbers in targets -/

theorem readNumber_eq_ok_iff {text : Bytes} (what : Bytes) :
    Target.readNumber text what = .ok n ↔ Numeral.Int64Text text n := by
  rw [← Numeral.exactSigned_eq_some_iff, Target.readNumber]
  split
  · next m hread => rw [hread, Except.ok.injEq, Option.some.injEq]
  · next hread => simp only [hread, reduceCtorEq]

theorem numberOf_eq_ok_none_iff : numberOf t key = .ok none ↔ t.get? key = none := by
  rw [numberOf, Target.number?]
  rcases t.get? key with _ | text
  · exact iff_of_true rfl rfl
  · dsimp only
    rcases Target.readNumber text key with _ | m
    · exact iff_of_false (fun h => by cases h) (Option.some_ne_none _)
    · exact iff_of_false (fun h => by cases h) (Option.some_ne_none _)

theorem numberOf_eq_ok_some_iff :
    numberOf t key = .ok (some n) ↔ ∃ text, t.get? key = some text ∧ Numeral.Int64Text text n := by
  rw [numberOf, Target.number?]
  rcases t.get? key with _ | text
  · simp only [Except.ok.injEq, reduceCtorEq, false_and, exists_false]
  · simp only [Option.some.injEq, exists_eq_left', ← readNumber_eq_ok_iff key]
    rcases Target.readNumber text key with _ | m
    · simp only [Functor.map, Except.map, reduceCtorEq]
    · simp only [Functor.map, Except.map, Except.ok.injEq, Option.some.injEq]

/-- A number is malformed if it is not there. -/
theorem numberOf_eq_error {e : HttpError} (h : numberOf t key = .error e) : e.status = 400 := by
  rw [numberOf] at h
  split at h <;> cases h
  rfl

/-- The number is chosen by a parameter, between zero and a bound, or it is the usual one as
    the parameter is absent. -/
def Chosen (t : Target) (key : Bytes) (usual bound n : Int) : Prop :=
  t.get? key = none ∧ n = usual ∨
    ∃ text, t.get? key = some text ∧ Numeral.Int64Text text n ∧ 0 ≤ n ∧ n ≤ bound

/-- Whether a number that may be absent is between zero and a bound. -/
def within (bound : Int) (n? : Option Int) : Bool := n?.all fun n => 0 ≤ n ∧ n ≤ bound

@[simp]
theorem within_none (bound : Int) : within bound none := rfl

theorem within_some {bound : Int} : within bound (some n) ↔ ¬ (n < 0 ∨ bound < n) := by
  rw [within, Option.all_some, decide_eq_true_iff, not_or, Int.not_lt, Int.not_lt]

theorem chosen_iff {usual bound : Int} :
    Chosen t key usual bound n ↔
      ∃ n?, numberOf t key = .ok n? ∧ within bound n? ∧ n = n?.getD usual := by
  constructor
  · rintro (⟨hget, rfl⟩ | ⟨text, hget, hn, hbounds⟩)
    · exact ⟨none, numberOf_eq_ok_none_iff.2 hget, rfl, rfl⟩
    · exact ⟨some n, numberOf_eq_ok_some_iff.2 ⟨text, hget, hn⟩, decide_eq_true hbounds, rfl⟩
  · rintro ⟨_ | n, hnumber, hbounds, rfl⟩
    · exact .inl ⟨numberOf_eq_ok_none_iff.1 hnumber, rfl⟩
    · obtain ⟨text, hget, hn⟩ := numberOf_eq_ok_some_iff.1 hnumber
      exact .inr ⟨text, hget, hn, of_decide_eq_true hbounds⟩

theorem Chosen.nonneg {key : Bytes} {usual bound : Int} (h : Chosen t key usual bound n)
    (husual : 0 ≤ usual) : 0 ≤ n := by
  rcases h with ⟨-, rfl⟩ | ⟨-, -, -, hn, -⟩
  exacts [husual, hn]

theorem Chosen.le {key : Bytes} {usual bound : Int} (h : Chosen t key usual bound n)
    (husual : usual ≤ bound) : n ≤ bound := by
  rcases h with ⟨-, rfl⟩ | ⟨-, -, -, -, hn⟩
  exacts [husual, hn]

/-! ### Ranges of pages -/

/-- The target chooses an offset in a page, and a length that may reach beyond its end. -/
def Admitted (t : Target) (pageSize offset n : Int) : Prop :=
  Chosen t "offset" 0 pageSize offset ∧ Chosen t "length" (pageSize - offset) pageSize n

theorem Admitted.bounds (h : Admitted t pageSize offset n) (hsize : 0 < pageSize) :
    (0 ≤ offset ∧ offset ≤ pageSize) ∧ 0 ≤ n ∧ n ≤ pageSize := by
  have hoffset := h.1.nonneg (Int.le_refl 0)
  have hle := h.1.le (Int.le_of_lt hsize)
  exact ⟨⟨hoffset, hle⟩, h.2.nonneg (by omega), h.2.le (by omega)⟩

/-- Both numbers are read, and then each has to be within the page. -/
theorem givenRange_eq (t : Target) (pageSize : Int) : givenRange t pageSize =
    numberOf t "offset" >>= fun offset? => numberOf t "length" >>= fun length? =>
      if within pageSize offset? then
        if within pageSize length? then
          .ok (offset?.getD 0, length?.getD (pageSize - offset?.getD 0))
        else .error (.malformed ("Invalid length " ++ Numeral.ofInt (length?.getD 0)))
      else .error (.malformed ("Offset " ++ Numeral.ofInt (offset?.getD 0) ++ " outside page of " ++
        Numeral.ofInt pageSize ++ " bytes")) := by
  rw [givenRange]
  refine congrArg _ (funext fun offset? => congrArg _ (funext fun length? => ?_))
  rcases offset? with _ | m <;> rcases length? with _ | m'
  · rfl
  · by_cases hm' : m' < 0 ∨ pageSize < m' <;>
      simp [within_some, hm', bind, Except.bind, pure, Except.pure, throw, throwThe,
        MonadExceptOf.throw]
  · by_cases hm : m < 0 ∨ pageSize < m <;>
      simp [within_some, hm, bind, Except.bind, pure, Except.pure, throw, throwThe,
        MonadExceptOf.throw]
  · by_cases hm : m < 0 ∨ pageSize < m
    · simp [within_some, hm, bind, Except.bind, throw, throwThe, MonadExceptOf.throw]
    · by_cases hm' : m' < 0 ∨ pageSize < m' <;>
        simp [within_some, hm, hm', bind, Except.bind, pure, Except.pure, throw, throwThe,
          MonadExceptOf.throw]

/-- The offset and the length that are read from a target are those that it chooses. -/
theorem givenRange_eq_ok_iff :
    givenRange t pageSize = .ok (offset, n) ↔ Admitted t pageSize offset n := by
  simp only [givenRange_eq, bind_eq_ok_iff, Admitted, chosen_iff]
  constructor
  · rintro ⟨offset?, hoffset, length?, hlength, h⟩
    split at h
    · next hwithin =>
      split at h
      · next hwithin' =>
        cases h
        exact ⟨⟨offset?, hoffset, hwithin, rfl⟩, length?, hlength, hwithin', rfl⟩
      · cases h
    · cases h
  · rintro ⟨⟨offset?, hoffset, hwithin, rfl⟩, length?, hlength, hwithin', rfl⟩
    exact ⟨offset?, hoffset, length?, hlength, by rw [if_pos hwithin, if_pos hwithin']⟩

/-- A range that is not read is malformed. -/
theorem givenRange_eq_error {e : HttpError} (h : givenRange t pageSize = .error e) :
    e.status = 400 := by
  rw [givenRange_eq] at h
  rcases bind_eq_error_iff.1 h with h | ⟨offset?, -, h⟩
  · exact numberOf_eq_error h
  rcases bind_eq_error_iff.1 h with h | ⟨length?, -, h⟩
  · exact numberOf_eq_error h
  split at h
  · split at h <;> cases h
    rfl
  · cases h
    rfl

/-- What is read is the offset, and the length cut at the end of the page. -/
theorem rangeOf_eq_ok_iff : rangeOf t pageSize = .ok (offset, length) ↔
    ∃ n, Admitted t pageSize offset n ∧ length = clampLength pageSize offset n := by
  simp only [rangeOf, bind_eq_ok_iff, ← givenRange_eq_ok_iff, pure, Except.pure, Except.ok.injEq,
    Prod.mk.injEq, Prod.exists]
  constructor
  · rintro ⟨offset, n, h, rfl, rfl⟩
    exact ⟨n, h, rfl⟩
  · rintro ⟨n, h, rfl⟩
    exact ⟨offset, n, h, rfl, rfl⟩

theorem rangeOf_eq_error {e : HttpError} (h : rangeOf t pageSize = .error e) :
    e.status = 400 := by
  rw [rangeOf] at h
  rcases bind_eq_error_iff.1 h with h | ⟨range, -, h⟩
  · exact givenRange_eq_error h
  · cases h

/-- The length, cut at the end of the page. -/
def cutLength (pageSize offset n : Int) : Int :=
  if pageSize < offset + n then pageSize - offset else n

theorem cutLength_eq (pageSize offset n : Int) :
    cutLength pageSize offset n = min n (pageSize - offset) := by
  rw [cutLength]
  split <;> omega

/-- The length is cut right if the position up to which is asked is a number of sixty-four
    bits. -/
theorem clampLength_of_le (hzero : 0 ≤ offset + n) (h : offset + n ≤ int64Max) :
    clampLength pageSize offset n = cutLength pageSize offset n := by
  rw [clampLength, cutLength, wrapInt64_of_le hzero h]

/-- Else it stays as it is. -/
theorem Admitted.clampLength_eq (h : Admitted t pageSize offset n) (hsize : 0 < pageSize)
    (hbound : pageSize ≤ int64Max) : clampLength pageSize offset n =
      if offset + n ≤ int64Max then cutLength pageSize offset n else n := by
  have hbounds := h.bounds hsize
  split
  · next hle => exact clampLength_of_le (by omega) hle
  · next hgt =>
    have hneg := wrapInt64_neg_of_lt (Int.not_le.1 hgt) (by omega)
    rw [clampLength, if_neg (by omega)]

/-- More than the page is never read of it. -/
theorem Admitted.clampLength_le (h : Admitted t pageSize offset n) :
    clampLength pageSize offset n ≤ pageSize := by
  have hoffset := h.1.nonneg (Int.le_refl 0)
  have hn := h.2.le (by omega)
  rw [clampLength]
  split <;> omega

theorem Admitted.clampLength_nonneg (h : Admitted t pageSize offset n) (hsize : 0 < pageSize) :
    0 ≤ clampLength pageSize offset n := by
  have hbounds := h.bounds hsize
  rw [clampLength]
  split <;> omega

namespace PageDesk

/-! ### What a target asks for -/

/-- The target asks for bytes of a page: for so many from an offset in the page on, if the page
    does not end before. -/
structure Asks (t : Target) (pageSize : Int) (address : PageAddress) (offset n : Int) : Prop where
  segments : ∃ index rest, t.segments = address.id :: "page" :: index :: rest ∧
    Numeral.Int64Text index address.index
  index_nonneg : 0 ≤ address.index
  admitted : Admitted t pageSize offset n

theorem ofTarget_eq_ok_iff :
    PageAddress.ofTarget t = .ok address ↔
      (∃ index rest, t.segments = address.id :: "page" :: index :: rest ∧
        Numeral.Int64Text index address.index) ∧ 0 ≤ address.index := by
  rw [PageAddress.ofTarget]
  constructor
  · intro h
    split at h
    · next id kind index rest hsegments =>
      split at h
      · cases h
      next hkind =>
      obtain rfl : kind = ascii "page" := by simpa using hkind
      split at h
      · cases h
      next n hread =>
      split at h
      · cases h
      next hindex =>
      cases h
      exact ⟨⟨index, rest, hsegments, (readNumber_eq_ok_iff _).1 hread⟩, Int.not_lt.1 hindex⟩
    · cases h
  · rintro ⟨⟨index, rest, hsegments, hnumber⟩, hindex⟩
    simp only [hsegments, bne_self_eq_false, Bool.false_eq_true, if_false,
      (readNumber_eq_ok_iff _).2 hnumber, if_neg (Int.not_lt.2 hindex)]

theorem ofTarget_eq_error {e : HttpError} (h : PageAddress.ofTarget t = .error e) :
    e.status = 400 := by
  rw [PageAddress.ofTarget] at h
  split at h
  · split at h
    · cases h
      rfl
    split at h
    · cases h
      rfl
    split at h <;> cases h
    rfl
  · cases h
    rfl

/-- What the desk reads from a target is what it asks for. -/
theorem asks_iff :
    Asks t pageSize address offset n ↔
      PageAddress.ofTarget t = .ok address ∧ givenRange t pageSize = .ok (offset, n) := by
  rw [ofTarget_eq_ok_iff, givenRange_eq_ok_iff]
  exact ⟨fun h => ⟨⟨h.segments, h.index_nonneg⟩, h.admitted⟩,
    fun ⟨⟨hsegments, hindex⟩, hadmitted⟩ => ⟨hsegments, hindex, hadmitted⟩⟩

theorem Asks.rangeOf_eq (h : Asks t pageSize address offset n) :
    rangeOf t pageSize = .ok (offset, clampLength pageSize offset n) :=
  rangeOf_eq_ok_iff.2 ⟨n, h.admitted, rfl⟩

/-- The target is that of a page, and nothing is said of the bytes of it. -/
structure AsksWhole (t : Target) (address : PageAddress) : Prop where
  segments : ∃ index rest, t.segments = address.id :: "page" :: index :: rest ∧
    Numeral.Int64Text index address.index
  index_nonneg : 0 ≤ address.index
  no_offset : t.get? "offset" = none
  no_length : t.get? "length" = none

/-- Then it asks for all of the page. -/
theorem AsksWhole.asks (h : AsksWhole t address) (pageSize : Int) :
    Asks t pageSize address 0 pageSize where
  segments := h.segments
  index_nonneg := h.index_nonneg
  admitted := ⟨.inl ⟨h.no_offset, rfl⟩, .inl ⟨h.no_length, (Int.sub_zero _).symm⟩⟩

/-! ### What a page read does -/

/-- The request fails, and a client is told so with the status. -/
def FailsWith (status : Int) (result : Except Failure Response) : Prop :=
  ∃ e : HttpError, result = .error (.http e) ∧ e.status = status

/-- The page is not there, or it is asked for bytes and there are none. -/
def Missing (p : LocalPages) (d : Disk) (address : PageAddress) (offset length : Int) : Prop :=
  p.find d address.id address.index = none ∨
    0 < length ∧ (p.content d address.id).length ≤ address.index * p.pageSize + offset

variable {p : LocalPages} {d : Disk} {root : Bytes} {s : Installation}
  {files : FileSystem Installation} {request : Request}

/-- Reading where a page is kept never makes a request malformed. -/
theorem not_malformed_readOutcome {base : Int} (address : PageAddress) :
    ¬ FailsWith 400 ((readOutcome address offset (p.readAt d address.id base length)).map
      pageResponse) := by
  rcases hread : p.readAt d address.id base length with e | (_ | bytes)
  · have hfails : e.isFileSystem :=
      LocalFiles.isFileSystem_of_bind hread (fun _ => LocalFiles.isFileSystem_of_openFile)
        fun _ _ _ => LocalFiles.isFileSystem_of_read
    cases e with
    | noSuchPath path =>
      rintro ⟨e, he, hstatus⟩
      cases he
      cases hstatus
    | fileSystem reason =>
      rintro ⟨e, he, hstatus⟩
      cases he
      cases hstatus
    | _ => cases hfails
  · rintro ⟨e, he, hstatus⟩
    cases he
    cases hstatus
  · rintro ⟨e, he, -⟩
    cases he

/-- A read that makes no sense is told so, and only such a read is. -/
theorem failsWith_malformed_iff :
    FailsWith 400 ((ofLocal files p).read request t s).result ↔
      ∀ address offset n, ¬ Asks t p.pageSize address offset n := by
  constructor
  · intro hfails address offset n hasks
    rw [PageDesk.read_result files request (asks_iff.1 hasks).1 hasks.rangeOf_eq s] at hfails
    split at hfails
    · obtain ⟨e, he, hstatus⟩ := hfails
      cases he
      cases hstatus
    split at hfails
    · obtain ⟨e, he, -⟩ := hfails
      cases he
    · exact not_malformed_readOutcome address hfails
  · intro hnone
    -- What the target does not tell, its address or its range, is the failure.
    rcases haddress : PageAddress.ofTarget t with e | address
    · refine ⟨e, Act.result_eq_iff.2 ?_, ofTarget_eq_error haddress⟩
      rw [PageDesk.read, haddress]
      exact Act.ends_bind (Act.ends_ofExcept (fun _ hv => by cases hv)
        fun _ he => congrArg _ (Except.error.inj he))
    rcases hrange : rangeOf t p.pageSize with e | range
    · refine ⟨e, Act.result_eq_iff.2 ?_, rangeOf_eq_error hrange⟩
      rw [PageDesk.read, haddress]
      refine Act.ends_bind (Act.Yields.ends (Act.yields_ofExcept rfl ?_))
      have hrange' : (rangeOf t (ofLocal files p).pages.pageSize).mapError Failure.http =
          .error (.http e) := congrArg _ hrange
      rw [hrange']
      exact Act.ends_bind (Act.ends_ofExcept (fun _ hv => by cases hv)
        fun _ he => congrArg _ (Except.error.inj he))
    · obtain ⟨n, hadmitted, -⟩ := rangeOf_eq_ok_iff.1 hrange
      exact absurd (asks_iff.2 ⟨haddress, givenRange_eq_ok_iff.2 hadmitted⟩)
        (hnone address range.1 n)

/-- What comes of asking for bytes of a page that is kept in a file, or in none, as long as
    the answer can be held and all positions are numbers of sixty-four bits. -/
theorem Asks.read_result (h : Asks t p.pageSize address offset n)
    (hlength : length = cutLength p.pageSize offset n)
    (files : FileSystem Installation) (request : Request) (hsize : 0 < p.pageSize)
    (htrim : LocalFiles.trimRoot p.root = p.root)
    (hfile : ∀ e, s.disk.status (p.pathFor address.id) = .ok e → ∃ c m, e = .file c m)
    (hsum : offset + n ≤ int64Max)
    (hend : address.index * p.pageSize + offset + length ≤ int64Max) (hheld : length ≤ maxAnswer) :
    ((ofLocal files p).read request t s).result =
      if p.find s.disk address.id address.index = none then .error (.http (notCached address))
      else if 0 < length ∧
          (p.content s.disk address.id).length ≤ address.index * p.pageSize + offset
        then .error (.http (noData address offset))
      else .ok (pageResponse (((p.content s.disk address.id).drop
        (address.index * p.pageSize + offset).toNat).take length.toNat)) := by
  obtain ⟨⟨hoffset, hpage⟩, hn, -⟩ := h.admitted.bounds hsize
  have hrange := h.rangeOf_eq
  rw [clampLength_of_le (Int.add_nonneg hoffset hn) hsum, ← hlength] at hrange
  rw [cutLength_eq] at hlength
  rw [PageDesk.read_result files request (asks_iff.1 h).1 hrange s]
  rcases hfind : p.find s.disk address.id address.index with _ | base
  · rfl
  have hid : isFileId address.id := by
    by_contra hid
    rw [LocalPages.find_of_not_isFileId hid] at hfind
    cases hfind
  rw [LocalPages.find_eq hsize hid hfile] at hfind
  split at hfind
  · next hlocated =>
    cases hfind
    have hstart : 0 ≤ address.index * p.pageSize :=
      Int.mul_nonneg hlocated.1 (Int.le_of_lt hsize)
    -- The page is there, so the file of its id is.
    obtain ⟨c, m, hstatus⟩ : ∃ c m, s.disk.status (p.pathFor address.id) = .ok (.file c m) := by
      rcases hstatus : s.disk.status (p.pathFor address.id) with e | e
      · rw [LocalPages.content, hstatus] at hlocated
        exact absurd hlocated.2.2 (Int.not_lt.2 hstart)
      · obtain ⟨c, m, rfl⟩ := hfile e hstatus
        exact ⟨c, m, rfl⟩
    have hcontent : p.content s.disk address.id = c := by rw [LocalPages.content, hstatus]
    dsimp only
    rw [if_neg (Int.not_lt.2 hheld), hcontent, if_neg (Option.some_ne_none _),
      wrapInt64_of_le (Int.add_nonneg hstart hoffset) (by omega),
      LocalPages.readAt_of_status htrim hid hstatus (Int.add_nonneg hstart hoffset) (by omega) hend]
    split <;> rfl
  · cases hfind

theorem field_length_pageResponse (bytes : Bytes) :
    (pageResponse bytes).field "Content-Length" = Numeral.ofNat bytes.length := by
  rw [pageResponse, Response.field, (Response.complete_withContent _ (.inl rfl)).length]
  rfl

/-- A page read fails with 400 just if it makes no sense. Of pages that are made, one that
    asks for bytes fails with 404 just if they are missing, and else is answered with 200
    and the bytes of the file from the position on, as many as are asked for and are there.
    None of them is behind the end of the page, where the length that is asked for is cut.

    What is kept under the id has to be a file, and the answer one that can be held. The
    positions up to which is asked, in the page and in the file, have to be numbers of
    sixty-four bits. -/
theorem read_outcome (hmade : (LocalPages.create root pageSize d).result = .ok p)
    (files : FileSystem Installation) (request : Request) (t : Target) (s : Installation) :
    (FailsWith 400 ((ofLocal files p).read request t s).result ↔
      ∀ address offset n, ¬ Asks t pageSize address offset n) ∧
    ∀ address offset n length, Asks t pageSize address offset n →
      length = cutLength pageSize offset n →
      (∀ e, s.disk.status (p.pathFor address.id) = .ok e → ∃ c m, e = .file c m) →
      offset + n ≤ int64Max → address.index * pageSize + offset + length ≤ int64Max →
      length ≤ maxAnswer →
      (FailsWith 404 ((ofLocal files p).read request t s).result ↔
        Missing p s.disk address offset length) ∧
      (¬ Missing p s.disk address offset length →
        ∃ response : Response, ((ofLocal files p).read request t s).result = .ok response ∧
          response.status = 200 ∧
          response.content.bytes = ((p.content s.disk address.id).drop
            (address.index * pageSize + offset).toNat).take length.toNat ∧
          response.field "Content-Length" = Numeral.ofNat response.content.bytes.length ∧
          response.content.bytes.length = min length.toNat
            ((p.content s.disk address.id).length -
              (address.index * pageSize + offset).toNat) ∧
          address.index * pageSize + offset + response.content.bytes.length ≤
            (address.index + 1) * pageSize) := by
  obtain ⟨rfl, hsize, -⟩ := LocalPages.create_eq_ok hmade
  refine ⟨failsWith_malformed_iff,
    fun address offset n length hasks hlength hfile hsum hend hheld => ?_⟩
  have hresult := hasks.read_result hlength files request hsize
    (LocalFiles.trimRoot_trimRoot root) hfile hsum hend hheld
  rw [hresult, Missing]
  split
  · next hnone => exact ⟨iff_of_true ⟨_, rfl, rfl⟩ (.inl hnone), fun h => absurd (.inl hnone) h⟩
  next hfound =>
  split
  · next hbehind =>
    exact ⟨iff_of_true ⟨_, rfl, rfl⟩ (.inr hbehind), fun h => absurd (.inr hbehind) h⟩
  next hthere =>
  have hok : ∀ response, ¬ FailsWith 404 (.ok response) := by
    rintro response ⟨e, he, -⟩
    cases he
  refine ⟨iff_of_false (hok _) (not_or.2 ⟨hfound, hthere⟩), fun _ => ⟨_, rfl, rfl, rfl,
    field_length_pageResponse _, ?_⟩⟩
  have hread : ∀ (c : Bytes) (start n : Nat),
      (pageResponse ((c.drop start).take n)).content.bytes.length = min n (c.length - start) :=
    fun c start n => (List.length_take ..).trans (congrArg _ (List.length_drop ..))
  refine ⟨hread .., ?_⟩
  -- What is asked for ends in the page once it is cut, and no more is read.
  have hbounds := hasks.admitted.bounds hsize
  rw [cutLength_eq] at hlength
  rw [hread, Int.add_mul, Int.one_mul]
  dsimp only at hbounds hlength ⊢
  omega

/-- The target of the two bytes in the middle of the first page of `a`. -/
def middlePart : Target :=
  ⟨"file", ["a", "page", "0"], .ofList [("offset", "1"), ("length", "2")]⟩

/-- They are read from the page that holds `abcd`. -/
theorem read_outcome_middlePart : ∃ response,
    (smallDesk.read {} middlePart filledOnce).result = .ok response ∧
      response.status = 200 ∧ response.content.bytes = "bc" := by
  have hmade : (LocalPages.create "/pages" 4 LocalPages.freshDisk).result = .ok ⟨"/pages", 4⟩ := by
    decide +kernel
  have hasks : Asks middlePart 4 ⟨"a", 0⟩ 1 2 :=
    asks_iff.2 ⟨by decide +kernel, by decide +kernel⟩
  have hkept : filledOnce.disk.status (LocalPages.pathFor ⟨"/pages", 4⟩ "a") =
      .ok (.file "abcd" 0) := by decide +kernel
  have hfile : ∀ e, filledOnce.disk.status (LocalPages.pathFor ⟨"/pages", 4⟩ "a") = .ok e →
      ∃ c m, e = .file c m := fun e he => ⟨_, _, (Except.ok.inj (hkept.symm.trans he)).symm⟩
  have hthere : ¬ Missing ⟨"/pages", 4⟩ filledOnce.disk ⟨"a", 0⟩ 1 2 := by
    rw [Missing]
    decide +kernel
  obtain ⟨-, houtcome⟩ := read_outcome hmade smallDesk.files {} middlePart filledOnce
  obtain ⟨-, hanswer⟩ :=
    houtcome _ _ _ 2 hasks (by decide) hfile (by decide) (by decide) (by decide)
  obtain ⟨response, hresponse, hstatus, hbytes, -⟩ := hanswer hthere
  exact ⟨response, hresponse, hstatus, hbytes.trans (by decide +kernel)⟩

end PageDesk

end PageServer.Worker
