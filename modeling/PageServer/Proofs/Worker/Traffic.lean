import PageServer.Proofs.Binary64
import PageServer.Proofs.Load.Workplace
import PageServer.Proofs.Worker.Answers
import PageServer.Proofs.Worker.Reads

/-!
# What the traffic counters say

A request *asks* for bytes if it reads a page and makes sense (`readBytes_eq_some_iff`): for a
length, cut at the end of the page (`askedBytes`). It counts so many, or more of them if the
position up to which it asks is no number of sixty-four bits (`countedBytes_eq`), and once more
if it is answered with 200; every other request leaves all metrics as they are
(`dispatch_metrics`).

So over any run of requests, of resets and of loads at work, the counters are the sums of
what was counted and of what of it was served since the last reset, within numbers of
sixty-four bits (`Observed.Accounted`, `traffic_accounted`); and these are the sums of what
was asked for, unless a request overreached. The hit rate is a fraction as long as the first
of these sums is such a number.
-/

namespace PageServer

open Http

/-! ### Counters -/

namespace Metrics

variable (m : Metrics) (name name' : Bytes) (n : Int)

theorem count_add :
    (m.add name n).count name' =
      if name' = name then wrapInt64 (m.count name + n) else m.count name' := by
  simp only [count, add, Table.get?_insert, Std.LawfulEqCmp.compare_eq_iff_eq]
  split <;> rfl

theorem count_resetAll : m.resetAll.count name = 0 := by
  rw [count, resetAll, Table.get?_map]
  cases m.counters.get? name <;> rfl

end Metrics

namespace Worker

/-! ### Bytes that are asked for -/

/-- The bytes of a page that a target is for, if it makes sense as that of a page: its length,
    cut in some way at the end of the page. -/
def bytesOf (cut : Int → Int → Int → Int) (pageSize : Int) (t : Target) : Option Int :=
  match PageAddress.ofTarget t, givenRange t pageSize with
  | .ok _, .ok range => some (cut pageSize range.1 range.2)
  | _, _ => none

/-- The bytes of a page that a request is for, if it reads a page and makes sense. -/
def readBytes (cut : Int → Int → Int → Int) (pageSize : Int) (request : Request) : Option Int :=
  match Target.parse request.target with
  | .error _ => none
  | .ok t =>
    if (request.token, t.mapping) = (ascii "GET", ascii "file") then bytesOf cut pageSize t
    else none

/-- The bytes that a request asks for, if it does: none behind the end of the page. -/
def askedBytes (pageSize : Int) (request : Request) : Option Int :=
  readBytes cutLength pageSize request

/-- The bytes that are counted for a request, if there are any. -/
def countedBytes (pageSize : Int) (request : Request) : Option Int :=
  readBytes clampLength pageSize request

/-- The request is for bytes up to a position that is no number of sixty-four bits. -/
def Overreaches (pageSize : Int) (request : Request) : Prop :=
  ∃ t address offset n, Target.parse request.target = .ok t ∧
    (request.token, t.mapping) = (ascii "GET", ascii "file") ∧
    PageDesk.Asks t pageSize address offset n ∧ int64Max < offset + n

variable {cut : Int → Int → Int → Int} {pageSize offset n k : Int} {request : Request} {t : Target}
  {address : PageAddress}

theorem bytesOf_eq_some_iff : bytesOf cut pageSize t = some k ↔
    ∃ address offset n, PageDesk.Asks t pageSize address offset n ∧ cut pageSize offset n = k := by
  simp only [PageDesk.asks_iff, bytesOf]
  constructor
  · intro h
    split at h
    · next address range haddress hrange =>
      exact ⟨address, range.1, range.2, ⟨haddress, hrange⟩, Option.some.inj h⟩
    · cases h
  · rintro ⟨address, offset, n, ⟨haddress, hrange⟩, rfl⟩
    rw [haddress, hrange]

theorem readBytes_of_read (hparse : Target.parse request.target = .ok t)
    (hkey : (request.token, t.mapping) = (ascii "GET", ascii "file")) :
    readBytes cut pageSize request = bytesOf cut pageSize t := by
  rw [readBytes, hparse]
  exact if_pos hkey

theorem readBytes_of_not_read (hparse : Target.parse request.target = .ok t)
    (hkey : (request.token, t.mapping) ≠ (ascii "GET", ascii "file")) :
    readBytes cut pageSize request = none := by
  rw [readBytes, hparse]
  exact if_neg hkey

theorem readBytes_eq_some_iff : readBytes cut pageSize request = some k ↔
    ∃ t address offset n, Target.parse request.target = .ok t ∧
      (request.token, t.mapping) = (ascii "GET", ascii "file") ∧
      PageDesk.Asks t pageSize address offset n ∧ cut pageSize offset n = k := by
  constructor
  · intro h
    rcases hparse : Target.parse request.target with fault | t
    · rw [readBytes, hparse] at h
      cases h
    by_cases hkey : (request.token, t.mapping) = (ascii "GET", ascii "file")
    · rw [readBytes_of_read hparse hkey, bytesOf_eq_some_iff] at h
      obtain ⟨address, offset, n, hasks, hcut⟩ := h
      exact ⟨t, address, offset, n, rfl, hkey, hasks, hcut⟩
    · rw [readBytes_of_not_read hparse hkey] at h
      cases h
  · rintro ⟨t, address, offset, n, hparse, hkey, hasks, hcut⟩
    rw [readBytes_of_read hparse hkey, bytesOf_eq_some_iff]
    exact ⟨address, offset, n, hasks, hcut⟩

/-- What is counted for a request that reads a page and makes sense. -/
theorem countedBytes_eq (hsize : 0 < pageSize) (hbound : pageSize ≤ int64Max)
    (hparse : Target.parse request.target = .ok t)
    (hkey : (request.token, t.mapping) = (ascii "GET", ascii "file"))
    (hasks : PageDesk.Asks t pageSize address offset n) :
    countedBytes pageSize request =
      some (if offset + n ≤ int64Max then cutLength pageSize offset n else n) :=
  readBytes_eq_some_iff.2
    ⟨t, address, offset, n, hparse, hkey, hasks, hasks.admitted.clampLength_eq hsize hbound⟩

/-- Nothing is counted for the other requests. -/
theorem countedBytes_eq_none (h : ∀ t address offset n, Target.parse request.target = .ok t →
    (request.token, t.mapping) = (ascii "GET", ascii "file") →
      ¬ PageDesk.Asks t pageSize address offset n) : countedBytes pageSize request = none := by
  refine Option.eq_none_iff_forall_ne_some.2 fun k hk => ?_
  obtain ⟨t, address, offset, n, hparse, hkey, hasks, -⟩ := readBytes_eq_some_iff.1 hk
  exact h t address offset n hparse hkey hasks

/-- Unless it overreaches, a request counts what it asks for. -/
theorem countedBytes_eq_askedBytes (hsize : 0 < pageSize) (h : ¬ Overreaches pageSize request) :
    countedBytes pageSize request = askedBytes pageSize request := by
  have hcut : ∀ {t address offset n}, Target.parse request.target = .ok t →
      (request.token, t.mapping) = (ascii "GET", ascii "file") →
        PageDesk.Asks t pageSize address offset n →
          clampLength pageSize offset n = cutLength pageSize offset n := by
    intro t address offset n hparse hkey hasks
    have hbounds := hasks.admitted.bounds hsize
    refine clampLength_of_le (by omega) (Int.not_lt.1 fun hlt => ?_)
    exact h ⟨t, address, offset, n, hparse, hkey, hasks, hlt⟩
  refine Option.ext fun k => ?_
  simp only [countedBytes, askedBytes, readBytes_eq_some_iff]
  refine exists₄_congr fun t address offset n => and_congr_right fun hparse =>
    and_congr_right fun hkey => and_congr_right fun hasks => ?_
  rw [hcut hparse hkey hasks]

/-- Of pages whose doubled size is a number of sixty-four bits no request overreaches. -/
theorem not_overreaches (hsize : 0 < pageSize) (h : 2 * pageSize ≤ int64Max) (request : Request) :
    ¬ Overreaches pageSize request := by
  rintro ⟨t, address, offset, n, -, -, hasks, hlt⟩
  have hbounds := hasks.admitted.bounds hsize
  omega

theorem countedBytes_nonneg (hsize : 0 < pageSize) (request : Request) :
    0 ≤ (countedBytes pageSize request).getD 0 := by
  rcases hcounted : countedBytes pageSize request with _ | k
  · exact Int.le_refl 0
  · obtain ⟨t, address, offset, n, -, -, hasks, rfl⟩ := readBytes_eq_some_iff.1 hcounted
    exact hasks.admitted.clampLength_nonneg hsize

/-- What is counted for a target is the length of its range. -/
theorem bytesOf_clampLength (pageSize : Int) (t : Target) : bytesOf clampLength pageSize t =
    match PageAddress.ofTarget t, rangeOf t pageSize with
    | .ok _, .ok range => some range.2
    | _, _ => none := by
  rw [bytesOf, rangeOf]
  rcases PageAddress.ofTarget t with e | address <;> rcases givenRange t pageSize with e | range <;>
    rfl

/-! ### What a request counts -/

/-- Whether a request was answered with 200. -/
def isServed (result : Except Failure Response) : Bool :=
  match result with
  | .ok response => response.status = 200
  | .error _ => false

/-- The metrics after a request that asks for bytes, if it does, and that was served or not. -/
def recount (asked : Option Int) (served : Bool) (m : Metrics) : Metrics :=
  match asked with
  | none => m
  | some n =>
    if served then (m.add bytesRequested n).add bytesServed n else m.add bytesRequested n

section Recount

variable {m : Metrics} {asked : Option Int} {served : Bool} {a : Int}

theorem count_recount_requested (h : m.count bytesRequested = wrapInt64 a) :
    (recount asked served m).count bytesRequested = wrapInt64 (a + asked.getD 0) := by
  rcases asked with _ | n
  · rw [recount, h, Option.getD_none, Int.add_zero]
  · rw [recount, Option.getD_some, ← wrapInt64_add, ← h]
    split
    · rw [Metrics.count_add, if_neg (by decide), Metrics.count_add, if_pos rfl]
    · rw [Metrics.count_add, if_pos rfl]

theorem count_recount_served (h : m.count bytesServed = wrapInt64 a) :
    (recount asked served m).count bytesServed =
      wrapInt64 (a + if served then asked.getD 0 else 0) := by
  rcases asked with _ | n
  · rw [recount, h, Option.getD_none, ite_self, Int.add_zero]
  · rw [recount, Option.getD_some]
    split
    · rw [Metrics.count_add, if_pos rfl, Metrics.count_add, if_neg (by decide), h, wrapInt64_add]
    · rw [Metrics.count_add, if_neg (by decide), h, Int.add_zero]

theorem gauges_recount : (recount asked served m).gauges = m.gauges := by
  rcases asked with _ | n
  · rfl
  · rw [recount]
    split <;> rfl

end Recount

theorem readAt_leaves {σ ρ : Type} {view : σ → ρ} {files : FileSystem σ}
    {location : PageLocation σ} (h : (location.source.getD files).Leaves view)
    (address : PageAddress) (offset length : Int) :
    (readAt files address location offset length).Leaves view := by
  rw [readAt]
  refine Act.leaves_bind (Act.leaves_recover ?_ fun e => ?_) fun found => ?_
  · exact Act.leaves_bind (h.openFile _) fun file => h.read file _ _
  · split
    · exact Act.leaves_throw _
    · exact Act.leaves_bind (Act.leaves_record _ _) fun _ => Act.leaves_throw _
    · exact Act.leaves_throw _
  · split
    · exact Act.leaves_pure _
    · exact Act.leaves_throw _

/-- A read of a page counts the bytes of its range, and again if it is answered. -/
theorem read_recounts (p : LocalPages) (files : FileSystem Installation) (request : Request)
    (t : Target) (s : Installation) :
    ((PageDesk.ofLocal files p).read request t).Ends s
      (fun r s' => r.status = 200 ∧
        s'.metrics = recount (bytesOf clampLength p.pageSize t) true s.metrics)
      fun e s' => (∀ h, e = .http h → h.status ≠ 200) ∧
        s'.metrics = recount (bytesOf clampLength p.pageSize t) false s.metrics := by
  -- None of the failures is told with status 200.
  have hfails : ∀ {e : HttpError} {k : Int}, e.status = k → k ≠ 200 →
      ∀ h, Failure.http e = .http h → h.status ≠ 200 := by
    rintro e k hstatus hk h heq
    cases heq
    rwa [hstatus]
  refine PageDesk.read_ends_of_parsed
    (fun e he => ⟨hfails (PageDesk.ofTarget_eq_error he) (by decide), ?_⟩)
    (fun address e haddress he => ⟨hfails (rangeOf_eq_error he) (by decide), ?_⟩)
    fun address offset length haddress hrange => ?_
  · rw [bytesOf_clampLength, he]
    rfl
  · rw [bytesOf_clampLength, haddress, he]
    rfl
  have hasked : bytesOf clampLength p.pageSize t = some length := by
    rw [bytesOf_clampLength, haddress, hrange]
  rw [hasked]
  refine PageDesk.read_ends files request haddress hrange s
    (fun _ => ⟨hfails (k := 404) rfl (by decide), rfl⟩)
    (fun _ _ _ => ⟨fun _ h => (by cases h), rfl⟩) fun base _ _ => ?_
  have hsource : ((PageDesk.placeOf p address.id base).source.getD files).Sound :=
    (LocalFiles.sound_onDisk _).within _
  have hleaves : ((PageDesk.placeOf p address.id base).source.getD files).Leaves
      Installation.metrics := FileSystem.leaves_within (fun _ _ => rfl) _
  refine ((readAt_ends hsource address offset length _).leaves
    (readAt_leaves hleaves address offset length)).mono ?_ ?_
  · rintro bytes s' ⟨-, hleft⟩
    exact ⟨rfl, congrArg (Metrics.add · bytesServed length) hleft⟩
  · rintro e s' ⟨htold, hleft⟩
    refine ⟨?_, hleft⟩
    rintro h rfl
    obtain ⟨h', heq, hstatus⟩ := htold
    cases heq
    omega

/-! ### Other requests -/

section Leaves

variable {σ ρ : Type} {view : σ → ρ} {desk : Desk σ}

theorem write_leaves {desk : PageDesk σ} (h : desk.pages.Leaves view) (request : Request)
    (t : Target) : (desk.write request t).Leaves view := by
  rw [PageDesk.write]
  split
  · exact Act.leaves_bind (Act.leaves_pure _) fun _ => Act.leaves_pure _
  refine Act.leaves_bind (Act.leaves_recover ?_ fun e => ?_) fun _ => Act.leaves_pure _
  · rw [PageDesk.store]
    refine Act.leaves_bind (Act.leaves_ofExcept _) fun address => ?_
    refine Act.leaves_bind (h.write _ _ _) fun written => ?_
    split <;> exact Act.leaves_pure _
  · unfold PageDesk.writeFailed
    split
    · exact Act.leaves_bind (Act.leaves_pure _) fun _ => Act.leaves_pure _
    · exact Act.leaves_bind (Act.leaves_record _ _) fun _ => Act.leaves_pure _

theorem orBackend_leaves {α : Type} {a : Act σ α} (h : a.Leaves view)
    (what path recorded : Bytes) : (Desk.orBackend what path recorded a).Leaves view := by
  rw [Desk.orBackend]
  refine Act.leaves_recover h fun e => ?_
  split
  · exact Act.leaves_bind (Act.leaves_record _ _) fun _ => Act.leaves_throw _
  · exact Act.leaves_throw _

theorem list_leaves (h : desk.files.Leaves view) (request : Request) (t : Target) :
    (desk.list request t).Leaves view :=
  Act.leaves_bind (Act.leaves_ofExcept _) fun path =>
    Act.leaves_bind (orBackend_leaves (h.list path) _ _ _) fun _ => Act.leaves_pure _

theorem status_leaves (h : desk.files.Leaves view) (request : Request) (t : Target) :
    (desk.status request t).Leaves view :=
  Act.leaves_bind (Act.leaves_ofExcept _) fun path =>
    Act.leaves_bind (orBackend_leaves (h.status path) _ _ _) fun _ => Act.leaves_pure _

theorem load_leaves (h : ∀ path o, (desk.loader.load path o).Leaves view) (request : Request)
    (t : Target) : (desk.load request t).Leaves view :=
  Act.leaves_bind (Act.leaves_ofExcept _) fun path =>
    Act.leaves_bind (Act.leaves_ofExcept _) fun o =>
      Act.leaves_bind (Act.leaves_record _ _) fun _ =>
        Act.leaves_bind (orBackend_leaves (h path o) _ _ _) fun _ => Act.leaves_pure _

end Leaves

theorem metricsDocument_leaves (desk : Desk Installation)
    (h : desk.metrics = Installation.metricsPart) (request : Request) (t : Target) :
    (desk.metricsDocument request t).Leaves Installation.metrics := by
  rw [Desk.metricsDocument, h]
  exact Act.leaves_bind (fun _ => rfl) fun _ => Act.leaves_pure _

/-- The workplace of the loads of a server that is installed. -/
def loadsOf (settings : Settings) (p : LocalPages) : Load.Workplace Installation :=
  ⟨Installation.files settings, p.store Installation.diskPart, Installation.servicePart⟩

theorem leaves_loadsOf (settings : Settings) (p : LocalPages) :
    (loadsOf settings p).Leaves Installation.metrics where
  files := FileSystem.leaves_within (fun _ _ => rfl) _
  pages := LocalPages.leaves_store (fun _ _ => rfl) p
  service _ _ := rfl

/-- A handler other than that of reads leaves the metrics. -/
theorem handler_leaves (settings : Settings) (p : LocalPages)
    {route : Method × Bytes × Handler Installation} (hroute : route ∈ (deskOf settings p).routes)
    (hkey : keyOf route ≠ (ascii "GET", ascii "file")) (request : Request) (t : Target) :
    (route.2.2 request t).Leaves Installation.metrics := by
  have hloads := leaves_loadsOf settings p
  simp only [Desk.routes, List.mem_cons, List.not_mem_nil, or_false] at hroute
  rcases hroute with rfl | rfl | rfl | rfl | rfl | rfl | rfl | rfl
  · exact absurd rfl hkey
  · exact write_leaves hloads.pages request t
  · exact write_leaves hloads.pages request t
  · exact list_leaves hloads.files request t
  · exact status_leaves hloads.files request t
  · exact load_leaves hloads.loader request t
  · exact Act.leaves_pure _
  · exact metricsDocument_leaves _ rfl request t

section Dispatch

variable (settings : Settings) (p : LocalPages) {router : Router Installation}
  (hroutes : ∀ key, router.routes.get? key =
    ((deskOf settings p).routes.find? (keyOf · = key)).map (·.2.2))

include hroutes

/-- A request counts the bytes that it is for, and again if its handler has an answer. One whose
    handler fails is not answered with 200, or it is for no bytes. -/
theorem handle_metrics (request : Request) (s : Installation) :
    (router.handle request).Ends s
      (fun r s' => s'.metrics =
        recount (countedBytes p.pageSize request) (isServed (.ok r)) s.metrics)
      fun e s' => (countedBytes p.pageSize request = none ∨ ∀ h, e = .http h → h.status ≠ 200) ∧
        s'.metrics = recount (countedBytes p.pageSize request) false s.metrics := by
  refine Router.handle_ends (fun fault hfault => ?_) (fun t hparse hnone allowed => ?_)
    fun t handler hparse hsome => ?_
  · have hnone : countedBytes p.pageSize request = none := by rw [countedBytes, readBytes, hfault]
    rw [hnone]
    exact ⟨.inl rfl, rfl⟩
  · have hkey : (request.token, t.mapping) ≠ (ascii "GET", ascii "file") := by
      intro hkey
      rw [hkey, hroutes] at hnone
      cases hnone
    rw [countedBytes, readBytes_of_not_read hparse hkey]
    exact ⟨.inl rfl, rfl⟩
  · by_cases hread : (request.token, t.mapping) = (ascii "GET", ascii "file")
    · rw [hread, hroutes] at hsome
      obtain rfl : (deskOf settings p).read = handler := Option.some.inj hsome
      rw [countedBytes, readBytes_of_read hparse hread]
      refine (read_recounts p _ request t s).mono ?_ fun e s' he => ⟨.inr he.1, he.2⟩
      rintro r s' ⟨hstatus, hmetrics⟩
      rw [hmetrics, isServed, hstatus]
      rfl
    · rw [hroutes, Option.map_eq_some_iff] at hsome
      obtain ⟨route, hfind, rfl⟩ := hsome
      have hkey : keyOf route = (request.token, t.mapping) := by
        simpa using List.find?_some hfind
      have hleaves := handler_leaves settings p (List.mem_of_find?_eq_some hfind)
        (hkey ▸ hread) request t
      rw [countedBytes, readBytes_of_not_read hparse hread]
      exact (hleaves.ends s).mono (fun _ _ => id) fun _ _ hleft => ⟨.inl rfl, hleft⟩

/-- A request counts the bytes that it is for, and again if it is answered with 200. All other
    metrics stay, and those of every request that is for none. -/
theorem dispatch_metrics (request : Request) (s : Installation) :
    (router.dispatch request s).state.metrics =
      recount (countedBytes p.pageSize request) (isServed (router.dispatch request s).result)
        s.metrics := by
  have hdispatch := Router.dispatch_ends (handle_metrics settings p hroutes request s)
    fun e s' he => ?_
  · rw [Act.Ends] at hdispatch
    split at hdispatch
    · next r hr => rw [hdispatch, hr]
    · next e he => rw [hdispatch.1.2, he]; rfl
  · obtain ⟨hnone | hstatus, hmetrics⟩ := he
    · rw [hmetrics, hnone]
      rfl
    · have hnot : isServed (.ok (Response.ofError e)) = false := by
        rw [isServed, Response.status_ofError]
        exact decide_eq_false (hstatus e rfl)
      rw [hmetrics, hnot]

end Dispatch

/-! ### Runs -/

/-- What can happen to a server: a request comes in, the metrics are reset, or the loads are
    worked on. -/
inductive Event
  | request (request : Request)
  | reset
  | work

/-- A state, and the requests that came in since the last reset, with what they came to. -/
structure Observed where
  state : Installation
  heard : List (Request × Except Failure Response) := []

namespace Observed

/-- What is observed after one more event. -/
def after (router : Router Installation) (loads : Load.Workplace Installation) (o : Observed) :
    Event → Observed
  | .request request =>
    ⟨(router.dispatch request o.state).state,
      o.heard ++ [(request, (router.dispatch request o.state).result)]⟩
  | .reset => ⟨{ o.state with metrics := o.state.metrics.resetAll }, []⟩
  | .work => ⟨(loads.step o.state).state, o.heard⟩

/-- What is observed over a run from a state. -/
def run (router : Router Installation) (loads : Load.Workplace Installation) (s : Installation)
    (events : List Event) : Observed := events.foldl (after router loads) ⟨s, []⟩

/-- The sum of the bytes of all requests. -/
def requested (bytes : Request → Option Int) (o : Observed) : Int :=
  (o.heard.map fun h => (bytes h.1).getD 0).sum

/-- The sum of the bytes of those requests that were answered with 200. -/
def served (bytes : Request → Option Int) (o : Observed) : Int :=
  ((o.heard.filter fun h => isServed h.2).map fun h => (bytes h.1).getD 0).sum

/-- The counters are the sums of what was counted and of what of it was served, and the hit rate
    is registered as their quotient. -/
structure Accounted (pageSize : Int) (o : Observed) : Prop where
  count_requested :
    o.state.metrics.count bytesRequested = wrapInt64 (o.requested (countedBytes pageSize))
  count_served : o.state.metrics.count bytesServed = wrapInt64 (o.served (countedBytes pageSize))
  rate : o.state.metrics.gauges.get? hitRate = some (.quotient bytesServed bytesRequested)

variable {pageSize : Int} {o : Observed} {settings : Settings} {p : LocalPages}
  {router : Router Installation}

theorem Accounted.after
    (hroutes : ∀ key, router.routes.get? key =
      ((deskOf settings p).routes.find? (keyOf · = key)).map (·.2.2))
    (h : o.Accounted p.pageSize) (event : Event) :
    (o.after router (loadsOf settings p) event).Accounted p.pageSize := by
  cases event with
  | request request =>
    have hmetrics := dispatch_metrics settings p hroutes request o.state
    constructor
    · simp only [Observed.after, hmetrics, requested, List.map_append, List.map_singleton,
        List.sum_append, List.sum_singleton]
      exact count_recount_requested h.count_requested
    · simp only [Observed.after, hmetrics, served, List.filter_append, List.map_append,
        List.sum_append, count_recount_served h.count_served]
      congr 2
      rcases hserved : isServed (router.dispatch request o.state).result <;> simp [hserved]
    · rw [Observed.after, hmetrics, gauges_recount]
      exact h.rate
  | reset =>
    have hzero : ∀ name, o.state.metrics.resetAll.count name = wrapInt64 0 := fun name =>
      Metrics.count_resetAll _ name
    exact ⟨hzero _, hzero _, h.rate⟩
  | work =>
    -- The work of the loads counts nothing.
    have hleft : ((loadsOf settings p).step o.state).state.metrics = o.state.metrics :=
      (leaves_loadsOf settings p).step o.state
    constructor
    · rw [Observed.after, hleft]
      exact h.count_requested
    · rw [Observed.after, hleft]
      exact h.count_served
    · rw [Observed.after, hleft]
      exact h.rate

theorem Accounted.run
    (hroutes : ∀ key, router.routes.get? key =
      ((deskOf settings p).routes.find? (keyOf · = key)).map (·.2.2))
    (h : o.Accounted p.pageSize) (events : List Event) :
    (events.foldl (Observed.after router (loadsOf settings p)) o).Accounted p.pageSize := by
  induction events generalizing o with
  | nil => exact h
  | cons event events ih => exact ih (h.after hroutes event)

/-- What was served is a part of what was counted. -/
theorem served_le_requested (hsize : 0 < pageSize) (o : Observed) :
    0 ≤ o.served (countedBytes pageSize) ∧
      o.served (countedBytes pageSize) ≤ o.requested (countedBytes pageSize) := by
  rw [served, requested]
  induction o.heard with
  | nil => exact ⟨Int.le_refl 0, Int.le_refl 0⟩
  | cons h heard ih =>
    have hnonneg := countedBytes_nonneg hsize h.1
    rw [List.map_cons, List.sum_cons, List.filter_cons]
    split
    · rw [List.map_cons, List.sum_cons]
      omega
    · omega

/-- The sums are those of what was asked for, if no request overreached. -/
theorem sums_congr (hsize : 0 < pageSize) (h : ∀ e ∈ o.heard, ¬ Overreaches pageSize e.1) :
    o.requested (countedBytes pageSize) = o.requested (askedBytes pageSize) ∧
      o.served (countedBytes pageSize) = o.served (askedBytes pageSize) := by
  have hsame : ∀ e ∈ o.heard, (countedBytes pageSize e.1).getD 0 =
      (askedBytes pageSize e.1).getD 0 := fun e he =>
    congrArg (Option.getD · 0) (countedBytes_eq_askedBytes hsize (h e he))
  constructor
  · rw [requested, requested, List.map_congr_left hsame]
  · rw [served, served, List.map_congr_left fun e he => hsame e (List.mem_of_mem_filter he)]

/-- What the hit rate reads as long as the sums are numbers of sixty-four bits. -/
theorem Accounted.hitRate_isFraction (h : o.Accounted pageSize) (hsize : 0 < pageSize)
    (hfits : o.requested (countedBytes pageSize) ≤ int64Max) :
    0 ≤ o.state.metrics.count bytesServed ∧
      o.state.metrics.count bytesServed ≤ o.state.metrics.count bytesRequested ∧
      ∃ rate, o.state.metrics.gaugeValue hitRate = some rate ∧ rate.IsFraction ∧ rate =
        if o.state.metrics.count bytesRequested = 0 then .zero false
        else Binary64.div (.ofInt (o.state.metrics.count bytesServed))
          (.ofInt (o.state.metrics.count bytesRequested)) := by
  obtain ⟨hzero, hle⟩ := served_le_requested hsize o
  have hserved := h.count_served
  have hrequested := h.count_requested
  -- Neither count has wrapped around.
  rw [wrapInt64_of_le hzero (hle.trans hfits)] at hserved
  rw [wrapInt64_of_le (hzero.trans hle) hfits] at hrequested
  refine ⟨by omega, by omega, _, by rw [Metrics.gaugeValue, h.rate]; rfl, ?_, rfl⟩
  split
  · exact Binary64.isFraction_zero
  · next hsome =>
    obtain ⟨a, ha⟩ := Int.eq_ofNat_of_zero_le hzero
    obtain ⟨b, hb⟩ := Int.eq_ofNat_of_zero_le (hzero.trans hle)
    rw [hserved, hrequested, ha, hb]
    rw [int64Max] at hfits
    exact Binary64.isFraction_div (by omega) (by omega) (by omega)

end Observed

/-- Nothing was counted yet, and the hit rate is registered. -/
structure NoTraffic (m : Metrics) : Prop where
  requested : m.count bytesRequested = 0
  served : m.count bytesServed = 0
  rate : m.gauges.get? hitRate = some (.quotient bytesServed bytesRequested)

theorem noTraffic_registerTraffic : NoTraffic (registerTraffic {}) :=
  ⟨by decide +kernel, by decide +kernel, by decide +kernel⟩

/-- The worker is installed on whatever the state is, and from then on no request changes the
    metrics that is not for bytes of a page. One that is counts its length, cut at the end of the
    page; but if the position up to which it asks is no number of sixty-four bits, it counts the
    length as it stands.

    Over every run of requests, resets and loads at work from a state without traffic, one counter
    is the sum of what was counted since the last reset, and the other one the sum of what of it
    was served, up to the number of words. These are the sums of what was asked for, if no request
    overreached, and none does of pages whose doubled size is a number of sixty-four bits.

    As long as the first sum is such a number the second counter is between zero and the first,
    and the hit rate, their quotient, between zero and one. -/
theorem traffic_accounted (settings : Settings) (p : LocalPages) (i : Installation)
    (hsize : 0 < p.pageSize) (hbound : p.pageSize ≤ int64Max) :
    (∀ request t address offset n, Target.parse request.target = .ok t →
      (request.token, t.mapping) = (ascii "GET", ascii "file") →
      PageDesk.Asks t p.pageSize address offset n →
        askedBytes p.pageSize request = some (cutLength p.pageSize offset n) ∧
        countedBytes p.pageSize request =
          some (if offset + n ≤ int64Max then cutLength p.pageSize offset n else n)) ∧
    (2 * p.pageSize ≤ int64Max → ∀ request, ¬ Overreaches p.pageSize request) ∧
    ((deskOf settings p).install {}).Yields i fun router _ =>
      (∀ request s, (∀ t address offset n, Target.parse request.target = .ok t →
          (request.token, t.mapping) = (ascii "GET", ascii "file") →
            ¬ PageDesk.Asks t p.pageSize address offset n) →
        (router.dispatch request s).state.metrics = s.metrics) ∧
      ∀ s, NoTraffic s.metrics → ∀ events o,
        o = Observed.run router (loadsOf settings p) s events →
        o.state.metrics.count bytesRequested =
          wrapInt64 (o.requested (countedBytes p.pageSize)) ∧
        o.state.metrics.count bytesServed = wrapInt64 (o.served (countedBytes p.pageSize)) ∧
        ((∀ h ∈ o.heard, ¬ Overreaches p.pageSize h.1) →
          o.requested (countedBytes p.pageSize) = o.requested (askedBytes p.pageSize) ∧
          o.served (countedBytes p.pageSize) = o.served (askedBytes p.pageSize)) ∧
        (o.requested (countedBytes p.pageSize) ≤ int64Max →
          0 ≤ o.state.metrics.count bytesServed ∧
          o.state.metrics.count bytesServed ≤ o.state.metrics.count bytesRequested ∧
          ∃ rate, o.state.metrics.gaugeValue hitRate = some rate ∧ rate.IsFraction ∧ rate =
            if o.state.metrics.count bytesRequested = 0 then .zero false
            else Binary64.div (.ofInt (o.state.metrics.count bytesServed))
              (.ofInt (o.state.metrics.count bytesRequested))) := by
  refine ⟨fun request t address offset n hparse hkey hasks => ⟨?_, ?_⟩, not_overreaches hsize,
    (install_yields _ i).mono fun router _ hroutes => ⟨fun request s hother => ?_, ?_⟩⟩
  · exact readBytes_eq_some_iff.2 ⟨t, address, offset, n, hparse, hkey, hasks, rfl⟩
  · exact countedBytes_eq hsize hbound hparse hkey hasks
  · rw [dispatch_metrics settings p hroutes, countedBytes_eq_none hother]
    rfl
  · rintro s hfresh events o rfl
    have hstart : Observed.Accounted p.pageSize ⟨s, []⟩ :=
      ⟨hfresh.requested, hfresh.served, hfresh.rate⟩
    have hrun := hstart.run hroutes events
    exact ⟨hrun.count_requested, hrun.count_served, Observed.sums_congr hsize,
      hrun.hitRate_isFraction hsize⟩

/-- A request for a page as a whole. -/
def wholePage : Request := { token := "GET", path := "/file/a/page/0" }

/-- A request for two bytes of it. -/
def twoBytes : Request := { token := "GET", path := "/file/a/page/0", query := "?length=2" }

/-- After both requests for a page of four bytes, six bytes were asked for and no more of them
    were served. -/
theorem traffic_accounted_twice : ∃ (router : Router Installation) (o : Observed),
    ((deskOf {} ⟨"/pages", 4⟩).install {} ({} : Installation)).result = .ok router ∧
    o = Observed.run router (loadsOf {} ⟨"/pages", 4⟩) { metrics := registerTraffic {} }
      [.request wholePage, .request twoBytes] ∧
    o.state.metrics.count bytesRequested = 6 ∧ 0 ≤ o.state.metrics.count bytesServed ∧
    o.state.metrics.count bytesServed ≤ 6 ∧
    ∃ rate, o.state.metrics.gaugeValue hitRate = some rate ∧ rate.IsFraction := by
  obtain ⟨-, -, router, hrouter, -, hrun⟩ :=
    traffic_accounted {} ⟨"/pages", 4⟩ {} (by decide) (by decide)
  obtain ⟨hrequested, -, -, hrate⟩ := hrun { metrics := registerTraffic {} }
    noTraffic_registerTraffic [.request wholePage, .request twoBytes] _ rfl
  have hcounted : (Observed.run router (loadsOf {} ⟨"/pages", 4⟩) { metrics := registerTraffic {} }
      [.request wholePage, .request twoBytes]).requested (countedBytes 4) = 6 := by
    have hwhole : countedBytes 4 wholePage = some 4 := by decide +kernel
    have hpart : countedBytes 4 twoBytes = some 2 := by decide +kernel
    simp only [Observed.requested, Observed.run, List.foldl_cons, List.foldl_nil, Observed.after,
      List.nil_append, List.singleton_append, List.map_cons, List.map_nil, hwhole, hpart]
    decide
  rw [hcounted] at hrequested hrate
  obtain ⟨hzero, hle, rate, hgauge, hfraction, -⟩ := hrate (by decide)
  rw [hrequested] at hle
  exact ⟨router, _, hrouter, rfl, hrequested, hzero, hle, rate, hgauge, hfraction⟩

/-- A request for as many bytes behind the end of a page as the page is long. -/
def endOfPage : Request :=
  { token := "GET", path := "/file/a/page/0",
    query := "?offset=4611686018427387904&length=4611686018427387904" }

/-- The counter of what is requested is not always the sum of what was asked for. -/
theorem not_always_accounted :
    ¬ ∀ (settings : Settings) (p : LocalPages) (i : Installation), 0 < p.pageSize →
      p.pageSize ≤ int64Max → ((deskOf settings p).install {}).Yields i fun router _ =>
        ∀ s, NoTraffic s.metrics → ∀ events o,
          o = Observed.run router (loadsOf settings p) s events →
          o.state.metrics.count bytesRequested =
            wrapInt64 (o.requested (askedBytes p.pageSize)) := by
  intro hall
  obtain ⟨router, hrouter, hrun⟩ :=
    hall {} ⟨"/pages", 0x4000000000000000⟩ {} (by decide) (by decide)
  obtain ⟨router', hrouter', hroutes⟩ :=
    install_yields (deskOf {} ⟨"/pages", 0x4000000000000000⟩) ({} : Installation)
  obtain rfl := Except.ok.inj (hrouter.symm.trans hrouter')
  have hsum := hrun { metrics := registerTraffic {} } noTraffic_registerTraffic
    [.request endOfPage] _ rfl
  -- Nothing is asked for, as the page ends where the bytes are to begin; but all is counted.
  have hasked : askedBytes 0x4000000000000000 endOfPage = some 0 := by decide +kernel
  have hcounted : countedBytes 0x4000000000000000 endOfPage = some 0x4000000000000000 := by
    decide +kernel
  have hcount := (Observed.Accounted.after hroutes (o := ⟨{ metrics := registerTraffic {} }, []⟩)
    ⟨by decide +kernel, by decide +kernel, by decide +kernel⟩ (.request endOfPage)).count_requested
  simp only [Observed.run, List.foldl_cons, List.foldl_nil] at hsum
  rw [hsum] at hcount
  simp only [Observed.requested, Observed.after, List.nil_append, List.map_cons, List.map_nil,
    List.sum_singleton, hasked, hcounted, Option.getD_some] at hcount
  exact absurd hcount (by decide)

end Worker

end PageServer
