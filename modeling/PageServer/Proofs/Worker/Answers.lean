import PageServer.Proofs.Worker.Reads

/-!
# Requests that are answered

Each handler of the worker ends in a complete response or in a failure that clients are
told of. A target that does not make sense is malformed, what a file system fails in is
told as missing or as a failure of the server (`orBackend_ends`, `readAt_ends`), and the
load service has an answer to everything (`Load.Service.load_yields`).

There is one exception: more bytes of a page may be asked for than can be held
(`TooMuch`). Then reading fails with what clients are not told of (`read_answersUnless`). So
the worker, once it is installed, answers each request in each state but these
(`dispatch_complete`), and they do come up if pages are large enough
(`not_always_complete`).
-/

namespace PageServer

open Http

/-! ### Failures that clients are told of -/

theorem isTold_of_status {e : HttpError} (h : e.status = 400) : (Failure.http e).IsTold :=
  ⟨e, rfl, .inl h⟩

theorem isTold_malformed (reason : Bytes) : (Failure.http (.malformed reason)).IsTold :=
  isTold_of_status rfl

namespace Worker

variable {σ α : Type} {s : σ} {t : Target} {e : HttpError}

theorem isTold_pathOf (h : pathOf t = .error e) : (Failure.http e).IsTold := by
  rw [pathOf] at h
  split at h <;> cases h <;> exact isTold_malformed _

/-- A part of a target makes sense, or the request ends in a failure. -/
theorem parsed_ends {ε : Type} {r : Except ε α} {g : ε → Failure} {Q : α → σ → Prop}
    {E : Failure → σ → Prop} (hok : ∀ v, r = .ok v → Q v s)
    (herror : ∀ e, r = .error e → E (g e) s) : (Act.ofExcept (r.mapError g)).Ends s Q E := by
  cases r with
  | ok v => exact hok v rfl
  | error e => exact herror e rfl

/-- A failure of the file system is told as a failure of the server. -/
theorem orBackend_ends {a : Act σ α} (what path recorded : Bytes)
    (h : a.Ends s (fun _ _ => True) fun e _ => e.isFileSystem) :
    (Desk.orBackend what path recorded a).Ends s (fun _ _ => True) fun e _ => e.IsTold := by
  rw [Desk.orBackend]
  refine Act.ends_recover (h.mono (fun _ _ => id) fun e s' he => ?_)
  rw [if_pos he]
  refine Act.ends_bind (Act.Yields.ends (Act.yields_record (Act.ends_throw ⟨_, rfl, ?_⟩)))
  exact .inr (.inr (.inr rfl))

/-- A page that cannot be read is told to be missing, or as a failure of the server. -/
theorem readAt_ends {files : FileSystem σ} {location : PageLocation σ}
    (h : (location.source.getD files).Sound) (address : PageAddress) (offset length : Int) (s : σ) :
    (readAt files address location offset length).Ends s (fun _ _ => True) fun e _ => e.IsTold := by
  rw [readAt]
  refine Act.ends_bind (Act.ends_recover ?_)
  have hcalls : (do
      let file ← (location.source.getD files).openFile location.path
      (location.source.getD files).read file (wrapInt64 (location.base + offset)) length).Ends s
        (fun _ _ => True) fun e _ => e.isFileSystem :=
    Act.ends_bind ((h.openFile _ s).mono (fun file s' _ => h.read file _ _ s') fun _ _ => id)
  refine hcalls.mono (fun found s' _ => ?_) fun e s' he => ?_
  · cases found with
    | some bytes => exact Act.ends_pure trivial
    | none => exact Act.ends_throw ⟨_, rfl, .inr (.inl rfl)⟩
  · cases e with
    | noSuchPath path => exact Act.ends_throw ⟨_, rfl, .inr (.inl rfl)⟩
    | fileSystem reason =>
      refine Act.ends_bind (Act.Yields.ends (Act.yields_record (Act.ends_throw ⟨_, rfl, ?_⟩)))
      exact .inr (.inr (.inr rfl))
    | _ => cases he

/-! ### Handlers -/

namespace Desk

variable {desk : Desk σ} {request : Request}

theorem write_answers (desk : PageDesk σ) (request : Request) (t : Target) (s : σ) :
    Answers (desk.write request t) s :=
  Act.Yields.ends ((PageDesk.write_yields desk request t s).mono fun _ _ ⟨_, hr, _⟩ =>
    hr ▸ Response.complete_json _)

theorem list_answers (h : desk.files.Sound) (request : Request) (t : Target) (s : σ) :
    Answers (desk.list request t) s := by
  rw [Desk.list]
  refine Act.ends_bind (parsed_ends (fun path _ => ?_) fun e he => isTold_pathOf he)
  refine Act.ends_bind ((orBackend_ends _ _ _ (h.list path s)).mono (fun entries s' _ => ?_)
    fun _ _ => id)
  exact Act.ends_pure (Response.complete_json _)

theorem status_answers (h : desk.files.Sound) (request : Request) (t : Target) (s : σ) :
    Answers (desk.status request t) s := by
  rw [Desk.status]
  refine Act.ends_bind (parsed_ends (fun path _ => ?_) fun e he => isTold_pathOf he)
  refine Act.ends_bind ((orBackend_ends _ _ _ (h.status path s)).mono (fun entry s' _ => ?_)
    fun _ _ => id)
  exact Act.ends_pure (Response.complete_json _)

/-- Whatever is asked of the loads of a path is answered. -/
theorem load_answers
    (h : ∀ path o s, (desk.loader.load path o).Ends s (fun _ _ => True) fun e _ => e.isFileSystem)
    (request : Request) (t : Target) (s : σ) :
    Answers (desk.load request t) s := by
  rw [Desk.load]
  refine Act.ends_bind (parsed_ends (fun path _ => ?_) fun e he => isTold_pathOf he)
  refine Act.ends_bind (parsed_ends (fun o _ => ?_) fun fault _ => isTold_malformed _)
  refine Act.ends_bind (Act.Yields.ends (Act.yields_record ?_))
  refine Act.ends_bind ((orBackend_ends _ _ _ (h path o s)).mono (fun text s' _ => ?_)
    fun _ _ => id)
  exact Act.ends_pure (Response.complete_plain _ (.inl rfl))

theorem health_answers (request : Request) (t : Target) (s : σ) :
    Answers (health request t) s :=
  Act.ends_pure (Response.complete_plain _ (.inl rfl))

theorem metricsDocument_answers (desk : Desk σ) (request : Request) (t : Target) (s : σ) :
    Answers (desk.metricsDocument request t) s := by
  rw [metricsDocument]
  refine Act.ends_bind (Act.ends_within (Act.Yields.ends (Act.yields_get ?_)))
  exact Act.ends_pure (Response.complete_json _)

end Desk

end Worker

namespace Load.Service

/-- The load service has an answer to whatever is asked of it. -/
theorem load_yields (path : Bytes) (o : LoadOptions) (s : Service) :
    (load path o).Yields s fun _ _ => True := by
  rw [load]
  split
  · rw [submit]
    split
    · exact Act.yields_pure trivial
    refine Act.yields_bind (Act.yields_get ?_)
    split
    · exact Act.yields_pure trivial
    · exact Act.yields_bind (Act.yields_modify
        (Act.yields_bind (Act.yields_record (Act.yields_pure trivial))))
  · rw [stop]
    refine Act.yields_bind (Act.yields_get ?_)
    split
    · exact Act.yields_bind (Act.yields_modify
        (Act.yields_bind (Act.yields_record (Act.yields_pure trivial))))
    · exact Act.yields_pure trivial
  · rw [progress]
    refine Act.yields_bind (Act.yields_get ?_)
    split
    · exact Act.yields_pure trivial
    · exact Act.yields_pure trivial

end Load.Service

namespace Worker

/-! ### Pages that are read -/

/-- The target asks for bytes of a page that is there, and for more of them than can be
    held. -/
def TooMuch (p : LocalPages) (d : Disk) (t : Target) : Prop :=
  ∃ address range base, PageAddress.ofTarget t = .ok address ∧
    rangeOf t p.pageSize = .ok range ∧ p.find d address.id address.index = some base ∧
      maxAnswer < range.2

/-- The action answers, unless too much is asked for: then it fails, and the client is not
    told. -/
def AnswersUnless (tooMuch : Prop) (a : Act σ Response) (s : σ) : Prop :=
  a.Ends s (fun r _ => ¬ tooMuch ∧ r.Complete)
    fun e _ => (¬ tooMuch ∧ e.IsTold) ∨ tooMuch ∧ e = cannotHold

theorem answersUnless_of_answers {tooMuch : Prop} {a : Act σ Response} (h : Answers a s)
    (hnot : ¬ tooMuch) : AnswersUnless tooMuch a s :=
  Act.Ends.mono h (fun _ _ hr => ⟨hnot, hr⟩) fun _ _ he => .inl ⟨hnot, he⟩

/-- A read of a page ends with what does not make sense in its target, or as other reads. -/
theorem PageDesk.read_ends_of_parsed {p : LocalPages} {files : FileSystem Installation}
    {request : Request} {s : Installation} {Q : Response → Installation → Prop}
    {E : Failure → Installation → Prop}
    (haddress : ∀ e, PageAddress.ofTarget t = .error e → E (.http e) s)
    (hrange : ∀ address e, PageAddress.ofTarget t = .ok address → rangeOf t p.pageSize = .error e →
      E (.http e) s)
    (hread : ∀ address offset length, PageAddress.ofTarget t = .ok address →
      rangeOf t p.pageSize = .ok (offset, length) →
        ((PageDesk.ofLocal files p).read request t).Ends s Q E) :
    ((PageDesk.ofLocal files p).read request t).Ends s Q E := by
  cases hok : PageAddress.ofTarget t with
  | error e =>
    rw [PageDesk.read, hok]
    exact Act.ends_bind (haddress e hok)
  | ok address =>
    cases hin : rangeOf t p.pageSize with
    | error e =>
      have hin' : rangeOf t (PageDesk.ofLocal files p).pages.pageSize = .error e := hin
      rw [PageDesk.read, hok, hin']
      exact Act.ends_bind (Act.Yields.ends (Act.yields_ofExcept rfl
        (Act.ends_bind (hrange address e hok hin))))
    | ok range => exact hread address range.1 range.2 hok hin

/-- A page is answered or told not to be there, unless too much is asked for. -/
theorem read_answersUnless (p : LocalPages) (files : FileSystem Installation) (request : Request)
    (t : Target) (s : Installation) :
    AnswersUnless (TooMuch p s.disk t) ((PageDesk.ofLocal files p).read request t) s := by
  refine PageDesk.read_ends_of_parsed
    (fun e he => .inl ⟨?_, isTold_of_status (PageDesk.ofTarget_eq_error he)⟩)
    (fun address e _ he => .inl ⟨?_, isTold_of_status (rangeOf_eq_error he)⟩)
    fun address offset length haddress hrange => ?_
  · rintro ⟨address, -, -, haddress, -⟩
    cases he.symm.trans haddress
  · rintro ⟨-, range, -, -, hrange, -⟩
    cases he.symm.trans hrange
  -- The address and the range are those that the target is asked for.
  have hmuch : TooMuch p s.disk t ↔
      (∃ base, p.find s.disk address.id address.index = some base) ∧ maxAnswer < length := by
    constructor
    · rintro ⟨address', range', base, haddress', hrange', hfind, hmax⟩
      obtain rfl := Except.ok.inj (haddress.symm.trans haddress')
      obtain rfl := Except.ok.inj (hrange.symm.trans hrange')
      exact ⟨⟨base, hfind⟩, hmax⟩
    · rintro ⟨⟨base, hfind⟩, hmax⟩
      exact ⟨address, (offset, length), base, haddress, hrange, hfind, hmax⟩
  refine PageDesk.read_ends files request haddress hrange s (fun hnone => .inl ⟨?_, ?_⟩)
    (fun base hfind hmax => .inr ⟨hmuch.2 ⟨⟨base, hfind⟩, hmax⟩, rfl⟩) fun base hfind hmax => ?_
  · simp [hmuch, hnone]
  · exact ⟨_, rfl, .inr (.inl rfl)⟩
  · have hnot : ¬ TooMuch p s.disk t := fun h => hmax (hmuch.1 h).2
    have hsource : ((PageDesk.placeOf p address.id base).source.getD files).Sound :=
      (LocalFiles.sound_onDisk _).within _
    exact (readAt_ends hsource address offset length _).mono
      (fun bytes _ _ => ⟨hnot, Response.complete_withContent _ (.inl rfl)⟩)
      fun e _ he => .inl ⟨hnot, he⟩

/-! ### Routes -/

/-- Under what a router keeps a route. -/
def keyOf (route : Method × Bytes × Handler σ) : Bytes × Bytes := (route.1.name, route.2.1)

/-- Routes that are all different, and different from those that a router has, are
    added. -/
theorem addAll_yields {τ : Type} {routes : List (Method × Bytes × Handler σ)} {router : Router σ}
    (hpaths : ∀ route ∈ routes, route.2.1 ≠ []) (hdistinct : (routes.map keyOf).Nodup)
    (hnew : ∀ route ∈ routes, router.routes.get? (keyOf route) = none) (s : τ) :
    (Desk.addAll routes router).Yields s fun router' _ => ∀ key,
      router'.routes.get? key =
        match routes.find? (keyOf · = key) with
        | some route => some route.2.2
        | none => router.routes.get? key := by
  induction routes generalizing router s with
  | nil => exact Act.yields_pure fun key => rfl
  | cons route routes ih =>
    obtain ⟨method, path, handler⟩ := route
    rw [List.forall_mem_cons] at hpaths hnew
    rw [List.map_cons, List.nodup_cons] at hdistinct
    obtain ⟨router₁, hadd, hget⟩ := Router.add?_eq_ok handler hpaths.1 hnew.1
    have hne : ∀ route ∈ routes, keyOf route ≠ (method.name, path) := fun route hroute heq =>
      hdistinct.1 (List.mem_map.2 ⟨route, hroute, heq⟩)
    -- The routes that are left differ from the one that was added.
    have hnew₁ : ∀ route ∈ routes, router₁.routes.get? (keyOf route) = none := by
      intro route hroute
      rw [hget, if_neg (hne route hroute), hnew.2 route hroute]
    rw [Desk.addAll]
    refine Act.yields_bind ?_
    rw [Router.add, hadd]
    refine Act.yields_bind (Act.yields_record (Act.yields_pure ?_))
    refine (ih hpaths.2 hdistinct.2 hnew₁ s).mono fun router₂ _ hrouter₂ key => ?_
    rw [hrouter₂, List.find?_cons]
    by_cases hkey : key = (method.name, path)
    · have hnone : routes.find? (keyOf · = key) = none := by
        refine List.find?_eq_none.2 fun route hroute => ?_
        simpa [hkey] using hne route hroute
      have hself : keyOf (method, path, handler) = key := hkey.symm
      simp only [hnone, hself, decide_true, hget, if_pos hkey]
    · have hother : ¬ keyOf (method, path, handler) = key := fun heq => hkey heq.symm
      simp only [hother, decide_false, hget, if_neg hkey]

/-- The methods and paths of the routes. -/
def routeKeys : List (Bytes × Bytes) :=
  [("GET", "file"), ("POST", "file"), ("PUT", "file"), ("GET", "files"), ("GET", "info"),
    ("GET", "load"), ("GET", "health"), ("GET", "metrics")]

theorem install_yields {τ : Type} (desk : Desk σ) (s : τ) :
    (desk.install {}).Yields s fun router _ => ∀ key,
      router.routes.get? key = (desk.routes.find? (keyOf · = key)).map (·.2.2) := by
  have hkeys : desk.routes.map keyOf = routeKeys := rfl
  have hpaths : ∀ route ∈ desk.routes, route.2.1 ≠ [] := fun route hroute => by
    have hmem : keyOf route ∈ routeKeys := hkeys ▸ List.mem_map_of_mem hroute
    exact (by decide : ∀ key ∈ routeKeys, key.2 ≠ []) _ hmem
  have hdistinct : (desk.routes.map keyOf).Nodup := by
    rw [hkeys]
    decide
  rw [Desk.install]
  refine Act.yields_bind ((addAll_yields hpaths hdistinct (fun _ _ => rfl) s).mono ?_)
  intro router _ hrouter
  refine Act.yields_bind (Act.yields_record (Act.yields_pure fun key => ?_))
  rw [hrouter]
  split <;> next hfind => rw [hfind]; rfl

/-- The desk of a server that is installed. -/
def deskOf (settings : Settings) (p : LocalPages) : Desk Installation where
  toPageDesk := PageDesk.ofLocal (Installation.files settings) p
  loader := (⟨Installation.files settings, p.store Installation.diskPart,
    Installation.servicePart⟩ : Load.Workplace Installation).loader

/-- The request is for a page that is there, and for more of it than can be held. -/
def AsksTooMuch (p : LocalPages) (d : Disk) (request : Request) : Prop :=
  ∃ t, Target.parse request.target = .ok t ∧
    (request.token, t.mapping) = (ascii "GET", ascii "file") ∧ TooMuch p d t

/-- Not too much is asked for of pages that can be held. -/
theorem not_asksTooMuch {p : LocalPages} (h : p.pageSize ≤ maxAnswer) (d : Disk)
    (request : Request) : ¬ AsksTooMuch p d request := by
  rintro ⟨t, -, -, address, range, base, -, hrange, -, hmax⟩
  obtain ⟨n, hadmitted, hlength⟩ := rangeOf_eq_ok_iff.1 hrange
  have hle := hadmitted.clampLength_le
  omega

theorem asksTooMuch_iff {p : LocalPages} {d : Disk} {request : Request} {t : Target}
    (hparse : Target.parse request.target = .ok t) :
    AsksTooMuch p d request ↔
      (request.token, t.mapping) = (ascii "GET", ascii "file") ∧ TooMuch p d t := by
  constructor
  · rintro ⟨t', hparse', hkey, hmuch⟩
    obtain rfl := Except.ok.inj (hparse.symm.trans hparse')
    exact ⟨hkey, hmuch⟩
  · rintro ⟨hkey, hmuch⟩
    exact ⟨t, hparse, hkey, hmuch⟩

/-- What a request comes to with the handler of its route. -/
theorem handler_answersUnless (settings : Settings) (p : LocalPages) {request : Request}
    {t : Target} (hparse : Target.parse request.target = .ok t)
    {route : Method × Bytes × Handler Installation} (hroute : route ∈ (deskOf settings p).routes)
    (hkey : keyOf route = (request.token, t.mapping)) (s : Installation) :
    AnswersUnless (AsksTooMuch p s.disk request) (route.2.2 request t) s := by
  have hasks := asksTooMuch_iff (p := p) (d := s.disk) hparse
  rw [← hkey] at hasks
  have hfiles : (deskOf settings p).files.Sound := (LocalFiles.sound_onDisk _).within _
  have hloads : ∀ path o s, ((deskOf settings p).loader.load path o).Ends s (fun _ _ => True)
      fun e _ => e.isFileSystem := fun path o s =>
    Act.ends_within (Load.Service.load_yields path o _).ends
  -- Only one of the handlers reads pages.
  have hother : keyOf route ≠ (ascii "GET", ascii "file") → Answers (route.2.2 request t) s →
      AnswersUnless (AsksTooMuch p s.disk request) (route.2.2 request t) s :=
    fun hne hanswers => answersUnless_of_answers hanswers fun hmuch => hne (hasks.1 hmuch).1
  simp only [Desk.routes, List.mem_cons, List.not_mem_nil, or_false] at hroute
  rcases hroute with rfl | rfl | rfl | rfl | rfl | rfl | rfl | rfl
  · have hmuch : AsksTooMuch p s.disk request ↔ TooMuch p s.disk t :=
      hasks.trans (and_iff_right rfl)
    rw [hmuch]
    exact read_answersUnless p _ request t s
  · exact hother (by simp only [keyOf]; decide) (Desk.write_answers _ request t s)
  · exact hother (by simp only [keyOf]; decide) (Desk.write_answers _ request t s)
  · exact hother (by simp only [keyOf]; decide) (Desk.list_answers hfiles request t s)
  · exact hother (by simp only [keyOf]; decide) (Desk.status_answers hfiles request t s)
  · exact hother (by simp only [keyOf]; decide) (Desk.load_answers hloads request t s)
  · exact hother (by simp only [keyOf]; decide) (Desk.health_answers request t s)
  · exact hother (by simp only [keyOf]; decide) (Desk.metricsDocument_answers _ request t s)

theorem isTold_unmatched (token path : Bytes) (allowed : Option (List Bytes)) :
    (Failure.http (.unmatched token path allowed)).IsTold := by
  cases allowed with
  | none => exact ⟨_, rfl, .inr (.inl rfl)⟩
  | some methods => exact ⟨_, rfl, .inr (.inr (.inl rfl))⟩

/-- What a request comes to with the routes of the worker. -/
theorem dispatch_ends (settings : Settings) (p : LocalPages) {router : Router Installation}
    (hroutes : ∀ key, router.routes.get? key =
      ((deskOf settings p).routes.find? (keyOf · = key)).map (·.2.2))
    (request : Request) (s : Installation) :
    (router.dispatch request).Ends s (fun r _ => ¬ AsksTooMuch p s.disk request ∧ r.Complete)
      fun e _ => AsksTooMuch p s.disk request ∧ e = cannotHold := by
  -- Neither a malformed target nor one without a route asks for a page.
  have hhandle : AnswersUnless (AsksTooMuch p s.disk request) (router.handle request) s := by
    refine Router.handle_ends (fun fault hfault => ?_) (fun t hparse hnone allowed => ?_)
      fun t handler hparse hsome => ?_
    · refine .inl ⟨?_, isTold_malformed _⟩
      rintro ⟨t, hparse, -⟩
      cases hfault.symm.trans hparse
    · refine .inl ⟨fun hmuch => ?_, isTold_unmatched _ _ _⟩
      rw [((asksTooMuch_iff hparse).1 hmuch).1, hroutes] at hnone
      cases hnone
    · rw [hroutes, Option.map_eq_some_iff] at hsome
      obtain ⟨route, hfind, rfl⟩ := hsome
      have hkey : keyOf route = (request.token, t.mapping) := by simpa using List.find?_some hfind
      exact handler_answersUnless settings p hparse (List.mem_of_find?_eq_some hfind) hkey s
  refine (Router.dispatch_ends hhandle fun e s' he => ?_).mono (fun _ _ => id) fun e s' he => ?_
  · rcases he with ⟨hnot, h, heq, hstatus⟩ | ⟨-, heq⟩
    · obtain rfl := Failure.http.inj heq
      exact ⟨hnot, Response.complete_ofError hstatus⟩
    · cases heq
  · obtain ⟨⟨-, h, heq, -⟩ | hmuch, hother⟩ := he
    · exact absurd heq (hother h)
    · exact hmuch

/-! ### Answers -/

/-- The worker is installed on whatever the state is, and from then on it answers each
    request in each state with a complete response, unless more bytes of a page are asked
    for than can be held. This request fails, and the failure gets through. If pages can
    be held as a whole, there is no such request. -/
theorem dispatch_complete (settings : Settings) (p : LocalPages) (i : Installation) :
    ((deskOf settings p).install {}).Yields i fun router _ =>
      ∀ (request : Request) (s : Installation),
        (¬ AsksTooMuch p s.disk request →
          (router.dispatch request).Yields s fun r _ => r.Complete) ∧
        (AsksTooMuch p s.disk request → (router.dispatch request s).result = .error cannotHold) ∧
        (p.pageSize ≤ maxAnswer → ¬ AsksTooMuch p s.disk request) := by
  refine (install_yields _ i).mono fun router _ hroutes request s => ?_
  have hends := dispatch_ends settings p hroutes request s
  refine ⟨fun hnot => ?_, fun hmuch => ?_, fun hsize => not_asksTooMuch hsize _ _⟩
  · exact (hends.mono (fun _ _ hr => hr.2) fun _ _ he => hnot he.1).yields fun _ _ => id
  · rw [Act.Ends] at hends
    split at hends
    · exact absurd hmuch hends.1
    · next e he => rw [he, hends.2]

/-- Pages of four bytes can be held, so each request is answered. -/
theorem dispatch_complete_small :
    ((deskOf {} ⟨"/pages", 4⟩).install {}).Yields ({} : Installation) fun router _ =>
      ∀ (request : Request) (s : Installation),
        (router.dispatch request).Yields s fun r _ => r.Complete :=
  (dispatch_complete {} ⟨"/pages", 4⟩ {}).mono
    fun _ _ h request s => (h request s).1 ((h request s).2.2 (by decide))

/-- A page of one byte in the largest pages that there can be. -/
def hugePages : LocalPages := ⟨"/pages", int64Max⟩

/-- Not each request is answered: it is too much to ask for the page as a whole. -/
theorem not_always_complete :
    ¬ ∀ (settings : Settings) (p : LocalPages) (i : Installation), 0 < p.pageSize →
      ((deskOf settings p).install {}).Yields i fun router _ =>
        ∀ (request : Request) (s : Installation),
          (router.dispatch request).Yields s fun r _ => r.Complete := by
  intro hall
  have hmuch : AsksTooMuch hugePages (hugePages.write "a" 0 "x" LocalPages.freshDisk).state
      { token := "GET", path := "/file/a/page/0" } :=
    ⟨⟨"file", ["a", "page", "0"], .empty⟩, rfl, rfl, ⟨"a", 0⟩, (0, int64Max), 0, rfl, rfl,
      by decide +kernel, by decide⟩
  obtain ⟨router, hrouter, hcomplete⟩ := hall {} hugePages {} (by decide)
  obtain ⟨router', hrouter', hroutes⟩ := install_yields (deskOf {} hugePages) ({} : Installation)
  obtain rfl := Except.ok.inj (hrouter.symm.trans hrouter')
  obtain ⟨r, hr, -⟩ := hcomplete { token := "GET", path := "/file/a/page/0" }
    { disk := (hugePages.write "a" 0 "x" LocalPages.freshDisk).state }
  have hends := dispatch_ends {} hugePages hroutes { token := "GET", path := "/file/a/page/0" }
    { disk := (hugePages.write "a" 0 "x" LocalPages.freshDisk).state }
  rw [Act.Ends, hr] at hends
  exact hends.1 hmuch

end Worker

end PageServer
