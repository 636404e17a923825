import PageServer.Proofs.Http.Routing
import PageServer.Proofs.Text

/-!
# Routes as they are added

A router comes about by adding routes to an empty one, each of which it may refuse and stay
as it was (`Router.ofRoutes`). A route is taken in if it has a path, and none that was taken
in before has its method and its path (`Router.adds`). The routes that were taken in make up
the table: a handler is found under a method and a path just if such a route has the three of
them (`Router.Lists`), and offering one more route preserves this (`Router.Lists.offer`). As
the table is sorted, it is the same in whichever order they came in (`Router.ofRoutes_perm`).

So what a request comes to goes by the routes that were taken in: by the one for its method
and path, or else by those for the path (`Router.AnsweredBy`, `Router.dispatch_exact`).
-/

namespace PageServer.Http

/-- A route to add. -/
structure Route (σ : Type) where
  method : Method
  path : Bytes
  handler : Handler σ

/-- What a route is found under. -/
def Route.key {σ : Type} (route : Route σ) : Bytes × Bytes := (route.method.name, route.path)

namespace Router

variable {σ : Type} {router router' : Router σ} {route : Route σ} {routes routes' : List (Route σ)}
  {request : Request} {target : Target} {s : σ}

/-- The router after a route was added. A router that refuses a route stays as it was. -/
def offer (router : Router σ) (route : Route σ) : Router σ :=
  match router.add? route.method route.path route.handler with
  | .ok router' => router'
  | .error _ => router

/-- The router after routes were added one after the other. -/
def ofRoutes (routes : List (Route σ)) : Router σ := routes.foldl offer {}

/-- The routes that are accepted when they are added one after the other. -/
def acceptedBy (router : Router σ) : List (Route σ) → List (Route σ)
  | [] => []
  | route :: routes =>
    match router.add? route.method route.path route.handler with
    | .ok router' => route :: acceptedBy router' routes
    | .error _ => acceptedBy router routes

/-- The routes that the empty router accepts, one after the other. -/
def accepted (routes : List (Route σ)) : List (Route σ) := acceptedBy {} routes

/-- The table of the router consists of the routes. -/
structure Lists (router : Router σ) (routes : List (Route σ)) : Prop where
  get?_eq_some_iff : ∀ key handler, router.routes.get? key = some handler ↔
    ∃ route ∈ routes, route.key = key ∧ route.handler = handler

/-! ### Adding routes -/

theorem lists_empty : Lists ({} : Router σ) [] where
  get?_eq_some_iff _ _ := iff_of_false nofun fun ⟨_, hmem, _⟩ => absurd hmem List.not_mem_nil

theorem Lists.get?_eq_none_iff (h : router.Lists routes) (key : Bytes × Bytes) :
    router.routes.get? key = none ↔ ∀ route ∈ routes, route.key ≠ key := by
  simp only [Option.eq_none_iff_forall_ne_some, ne_eq, h.get?_eq_some_iff, not_exists, not_and]
  exact ⟨fun hnone route hmem hkey => hnone _ route hmem hkey rfl,
    fun hnone _ route hmem hkey _ => hnone route hmem hkey⟩

/-- What comes of adding a route to a router with a given table. -/
theorem Lists.add?_eq (h : router.Lists routes) (route : Route σ) :
    router.add? route.method route.path route.handler =
      if route.path = [] then .error .emptyPath
      else if ∃ other ∈ routes, other.key = route.key then
        .error (.duplicate route.method.name route.path)
      else .ok ⟨router.routes.insert route.key route.handler⟩ := by
  have hcontains : router.routes.contains route.key = true ↔
      ∃ other ∈ routes, other.key = route.key := by
    rw [← not_iff_not, Table.contains, Option.not_isSome_iff_eq_none, h.get?_eq_none_iff]
    simp
  simp only [add?, List.isEmpty_iff, ← hcontains]
  rfl

theorem Lists.insert (h : router.Lists routes) (hnew : ∀ other ∈ routes, other.key ≠ route.key) :
    Lists ⟨router.routes.insert route.key route.handler⟩ (routes ++ [route]) where
  get?_eq_some_iff := by
    intro key handler
    simp only [Table.get?_insert, Std.LawfulEqCmp.compare_eq_iff_eq, List.mem_append,
      List.mem_singleton]
    split
    · next hkey =>
      subst hkey
      constructor
      · intro heq
        exact ⟨route, .inr rfl, rfl, Option.some.inj heq⟩
      · rintro ⟨other, hmem | rfl, hkey, rfl⟩
        · exact absurd hkey (hnew other hmem)
        · rfl
    · next hkey =>
      rw [h.get?_eq_some_iff]
      constructor
      · rintro ⟨other, hmem, hother⟩
        exact ⟨other, .inl hmem, hother⟩
      · rintro ⟨other, hmem | rfl, hother⟩
        · exact ⟨other, hmem, hother⟩
        · exact absurd hother.1.symm hkey

/-- One more route is added to the table, or changes nothing. -/
theorem Lists.offer (h : router.Lists routes) (route : Route σ) :
    (router.offer route).Lists (routes ++ router.acceptedBy [route]) := by
  have hadd := h.add?_eq route
  rw [Router.offer, acceptedBy]
  split_ifs at hadd with hpath hkey <;> rw [hadd]
  · rwa [acceptedBy, List.append_nil]
  · rwa [acceptedBy, List.append_nil]
  · exact h.insert fun other hmem heq => hkey ⟨other, hmem, heq⟩

theorem acceptedBy_append (router : Router σ) (front back : List (Route σ)) :
    router.acceptedBy (front ++ back) =
      router.acceptedBy front ++ (front.foldl Router.offer router).acceptedBy back := by
  induction front generalizing router with
  | nil => rfl
  | cons route front ih =>
    rw [List.cons_append, acceptedBy, acceptedBy, List.foldl_cons, Router.offer]
    split <;> rw [ih]
    rfl

theorem ofRoutes_snoc (routes : List (Route σ)) (route : Route σ) :
    ofRoutes (routes ++ [route]) = (ofRoutes routes).offer route := by
  rw [ofRoutes, ofRoutes, List.foldl_append]
  rfl

theorem accepted_snoc (routes : List (Route σ)) (route : Route σ) :
    accepted (routes ++ [route]) = accepted routes ++ (ofRoutes routes).acceptedBy [route] :=
  acceptedBy_append _ _ _

/-- The table of a router consists of the routes that it accepted. -/
theorem lists_ofRoutes (routes : List (Route σ)) : (ofRoutes routes).Lists (accepted routes) := by
  induction routes using List.reverseRecOn with
  | nil => exact lists_empty
  | append_singleton routes route ih =>
    rw [ofRoutes_snoc, accepted_snoc]
    exact ih.offer route

/-- Of the routes in a table nothing matters but which they are. -/
theorem Lists.eq (h : router.Lists routes) (h' : router'.Lists routes')
    (hsame : ∀ route, route ∈ routes ↔ route ∈ routes') : router = router' := by
  have hget : ∀ key, router.routes.get? key = router'.routes.get? key := fun key =>
    Option.ext fun handler => by simp only [h.get?_eq_some_iff, h'.get?_eq_some_iff, hsame]
  obtain ⟨table⟩ := router
  obtain ⟨table'⟩ := router'
  exact congrArg Router.mk (Table.ext_get? hget)

/-- The route can be added to those that are there. -/
def Fits (routes : List (Route σ)) (route : Route σ) : Prop :=
  route.path ≠ [] ∧ ∀ other ∈ routes, other.key ≠ route.key

theorem add_result {τ : Type} (router : Router σ) (route : Route σ) (t : τ) :
    (router.add route.method route.path route.handler t).result =
      (router.add? route.method route.path route.handler).mapError fun refusal =>
        .invalidArgument refusal.message := by
  rw [add]
  cases router.add? route.method route.path route.handler <;> rfl

/-- A route that fits is taken in as the last one. Any other is refused, and changes nothing. -/
structure Adds (routes : List (Route σ)) (route : Route σ) : Prop where
  fits : Fits (accepted routes) route →
    (∀ {τ : Type} (t : τ),
      ((ofRoutes routes).add route.method route.path route.handler t).result =
        .ok (ofRoutes (routes ++ [route]))) ∧
      accepted (routes ++ [route]) = accepted routes ++ [route]
  refused : ¬ Fits (accepted routes) route →
    (∀ {τ : Type} (t : τ),
      ((ofRoutes routes).add route.method route.path route.handler t).result =
        .error (.invalidArgument (if route.path = [] then "route mapping path must not be empty"
          else "duplicate route " ++ route.method.name ++ " /" ++ route.path))) ∧
      ofRoutes (routes ++ [route]) = ofRoutes routes ∧
      accepted (routes ++ [route]) = accepted routes

theorem adds (routes : List (Route σ)) (route : Route σ) : Adds routes route where
  fits := by
    rintro ⟨hpath, hnew⟩
    -- No route has its key, and the path is not empty, so the table takes it.
    have hnot : ¬ ∃ other ∈ accepted routes, other.key = route.key :=
      fun ⟨other, hmem, hkey⟩ => hnew other hmem hkey
    have hadd := (lists_ofRoutes routes).add?_eq route
    rw [if_neg hpath, if_neg hnot] at hadd
    rw [ofRoutes_snoc, accepted_snoc, offer, acceptedBy, hadd]
    refine ⟨fun t => ?_, rfl⟩
    rw [add_result _ route t, hadd]
    rfl
  refused := by
    intro hfits
    have hadd : (ofRoutes routes).add? route.method route.path route.handler =
        .error (if route.path = [] then .emptyPath
          else .duplicate route.method.name route.path) := by
      rw [(lists_ofRoutes routes).add?_eq]
      split_ifs with hpath hkey
      · rfl
      · rfl
      · exact absurd ⟨hpath, fun other hmem heq => hkey ⟨other, hmem, heq⟩⟩ hfits
    rw [ofRoutes_snoc, accepted_snoc, offer, acceptedBy, hadd]
    refine ⟨fun t => ?_, rfl, List.append_nil _⟩
    rw [add_result _ route t, hadd]
    split_ifs <;> rfl

/-- Each of the routes fits the other ones. -/
def Fit (routes : List (Route σ)) : Prop :=
  (∀ route ∈ routes, route.path ≠ []) ∧ routes.Pairwise fun a b => a.key ≠ b.key

theorem fit_snoc_iff : Fit (routes ++ [route]) ↔ Fit routes ∧ Fits routes route := by
  simp only [Fit, Fits, List.forall_mem_append, List.forall_mem_singleton, List.pairwise_append,
    List.pairwise_singleton, true_and]
  tauto

/-- Routes that fit each other do so in any order. -/
theorem Fit.perm (h : Fit routes) (hperm : routes'.Perm routes) : Fit routes' :=
  ⟨fun route hmem => h.1 route (hperm.mem_iff.1 hmem),
    (hperm.pairwise_iff Ne.symm).2 h.2⟩

theorem fit_accepted (routes : List (Route σ)) : Fit (accepted routes) := by
  induction routes using List.reverseRecOn with
  | nil => exact ⟨fun _ hmem => absurd hmem List.not_mem_nil, .nil⟩
  | append_singleton routes route ih =>
    by_cases hfits : Fits (accepted routes) route
    · rw [((adds routes route).fits hfits).2]
      exact fit_snoc_iff.2 ⟨ih, hfits⟩
    · rwa [((adds routes route).refused hfits).2.2]

/-- Routes that fit each other are all taken in. -/
theorem Fit.accepted_eq (h : Fit routes) : accepted routes = routes := by
  induction routes using List.reverseRecOn with
  | nil => rfl
  | append_singleton routes route ih =>
    obtain ⟨hfit, hfits⟩ := fit_snoc_iff.1 h
    rw [((adds routes route).fits ((ih hfit).symm ▸ hfits)).2, ih hfit]

/-- The routes that a router took in make it up in whatever order they come. -/
theorem ofRoutes_perm (hperm : routes'.Perm (accepted routes)) :
    accepted routes' = routes' ∧ ofRoutes routes' = ofRoutes routes := by
  have hall : accepted routes' = routes' := ((fit_accepted routes).perm hperm).accepted_eq
  refine ⟨hall, (lists_ofRoutes routes').eq (lists_ofRoutes routes) fun route => ?_⟩
  rw [hall, hperm.mem_iff]

/-! ### Methods of a path -/

theorem Lists.mem_allowed_iff (h : router.Lists routes) (path name : Bytes) :
    name ∈ router.allowed path ↔
      ∃ route ∈ routes, route.path = path ∧ route.method.name = name := by
  have hkey : name ∈ router.allowed path ↔ (name, path) ∈ router.routes.keys := by
    simp [allowed]
  rw [hkey, Table.mem_keys_iff, ← not_iff_not, not_not, h.get?_eq_none_iff]
  simp [Route.key, and_comm]

/-- The methods of a path are there in their order, each once. -/
theorem pairwise_allowed (router : Router σ) (path : Bytes) :
    (router.allowed path).Pairwise (· < ·) := by
  rw [allowed, List.pairwise_map, List.pairwise_filter, Table.keys, List.pairwise_map]
  refine router.routes.sorted.imp fun {a b} hlt ha hb => ?_
  have hpath : a.1.2 = b.1.2 := (of_decide_eq_true ha).trans (of_decide_eq_true hb).symm
  have hself : compare b.1.2 b.1.2 = .eq := Std.ReflCmp.compare_self
  rw [compareRoute, hpath, hself, Ordering.then_eq] at hlt
  exact Bytes.compare_eq_lt_iff.1 hlt

/-- No method has an empty name, so that none is left out where the methods are told. -/
theorem Lists.allowText_allowed (h : router.Lists routes) (path : Bytes) :
    Response.allowText (router.allowed path) = Bytes.join ", " (router.allowed path) := by
  have hname : ∀ name ∈ router.allowed path, name.isEmpty = false := by
    intro name hmem
    obtain ⟨route, -, -, rfl⟩ := (h.mem_allowed_iff path name).1 hmem
    cases route.method <;> rfl
  rw [Response.allowText]
  cases hallowed : router.allowed path with
  | nil => rfl
  | cons name names =>
    rw [hallowed] at hname
    rw [List.dropWhile_cons_of_neg (by simp [hname name List.mem_cons_self])]

/-! ### Requests -/

/-- How a client gets to know what a handler ended in: a response is passed on, an HTTP
    failure becomes a response with its status and words, and any other failure gets
    through. -/
inductive Answered : Except Failure Response → Except Failure Response → Prop
  | response (response : Response) : Answered (.ok response) (.ok response)
  | told (e : HttpError) (response : Response) (hstatus : response.status = e.status)
      (hcontent : response.content = .buffered e.message) :
      Answered (.error (.http e)) (.ok response)
  | through (e : Failure) (hother : ∀ h, e ≠ .http h) : Answered (.error e) (.error e)

theorem dispatch_answered (router : Router σ) (request : Request) (s : σ) :
    (router.dispatch request s).state = (router.handle request s).state ∧
      Answered (router.handle request s).result (router.dispatch request s).result := by
  rw [dispatch, Act.recover]
  rcases router.handle request s with ⟨e | response, s', log⟩
  · cases e with
    | http e => exact ⟨rfl, .told e _ (Response.status_ofError e) (Response.content_ofError e)⟩
    | _ => exact ⟨rfl, .through _ fun _ => Failure.noConfusion⟩
  · exact ⟨rfl, .response response⟩

theorem dispatch_of_throw {e : HttpError} (h : router.handle request = throw (.http e)) (s : σ) :
    (router.dispatch request s).state = s ∧
      (router.dispatch request s).result = .ok (Response.ofError e) := by
  rw [dispatch, h]
  exact ⟨rfl, rfl⟩

theorem handle_of_malformed {fault : Target.Fault}
    (hparse : Target.parse request.target = .error fault) :
    router.handle request = throw (.http fault.error) := by
  rw [handle, hparse]

theorem Lists.handle_of_mem (h : router.Lists routes)
    (hparse : Target.parse request.target = .ok target) (hmem : route ∈ routes)
    (hkey : route.key = (request.token, target.mapping)) :
    router.handle request = route.handler request target := by
  have hget := (h.get?_eq_some_iff _ _).2 ⟨route, hmem, hkey, rfl⟩
  simp only [handle, hparse, find, hget]

/-- Without a route for the method, it matters whether there is one for the path. -/
theorem Lists.handle_of_not_mem (h : router.Lists routes)
    (hparse : Target.parse request.target = .ok target)
    (hnone : ∀ route ∈ routes, route.key ≠ (request.token, target.mapping)) :
    router.handle request = throw (.http (.unmatched request.token target.mapping
      (if router.allowed target.mapping = [] then none
        else some (router.allowed target.mapping)))) := by
  have hget := (h.get?_eq_none_iff _).2 hnone
  simp only [handle, hparse, find, hget]
  cases router.allowed target.mapping <;> rfl

theorem Lists.allowed_eq_nil_iff (h : router.Lists routes) (path : Bytes) :
    router.allowed path = [] ↔ ∀ route ∈ routes, route.path ≠ path := by
  simp only [List.eq_nil_iff_forall_not_mem, h.mem_allowed_iff, not_exists, not_and]
  exact ⟨fun hnone route hmem hpath => hnone _ route hmem hpath rfl,
    fun hnone _ route hmem hpath _ => hnone route hmem hpath⟩

/-- The outcome of a request is that of a router with the routes. -/
structure AnsweredBy (routes : List (Route σ)) (request : Request) (s : σ)
    (outcome : Outcome σ Response) : Prop where
  malformed : ∀ fault, Target.parse request.target = .error fault →
    outcome.state = s ∧ ∃ response, outcome.result = .ok response ∧ response.status = 400 ∧
      response.content = .buffered fault.message.toNul
  /-- The handler of the method and the path is run. -/
  handled : ∀ target, Target.parse request.target = .ok target →
    ∀ route ∈ routes, route.key = (request.token, target.mapping) →
      outcome.state = (route.handler request target s).state ∧
        Answered (route.handler request target s).result outcome.result
  /-- The path has handlers, but not of the method: the client is told of which ones. -/
  notAllowed : ∀ target, Target.parse request.target = .ok target →
    (∀ route ∈ routes, route.key ≠ (request.token, target.mapping)) →
    (∃ route ∈ routes, route.path = target.mapping) →
    outcome.state = s ∧ ∃ response names, outcome.result = .ok response ∧ response.status = 405 ∧
      response.fields.get? "Allow" = some (Bytes.join ", " names) ∧ names.Pairwise (· < ·) ∧
      (∀ name, name ∈ names ↔
        ∃ route ∈ routes, route.path = target.mapping ∧ route.method.name = name) ∧
      request.token ∉ names
  /-- The path has no handler. -/
  notFound : ∀ target, Target.parse request.target = .ok target →
    (∀ route ∈ routes, route.path ≠ target.mapping) →
    outcome.state = s ∧ ∃ response, outcome.result = .ok response ∧ response.status = 404 ∧
      response.fields.get? "Allow" = none

theorem Lists.answeredBy (h : router.Lists routes) (request : Request) (s : σ) :
    AnsweredBy routes request s (router.dispatch request s) where
  malformed := by
    intro fault hparse
    obtain ⟨hstate, hresult⟩ := dispatch_of_throw (router.handle_of_malformed hparse) s
    exact ⟨hstate, _, hresult, Response.status_ofError _, Response.content_ofError _⟩
  handled := by
    intro target hparse route hmem hkey
    rw [← h.handle_of_mem hparse hmem hkey]
    exact router.dispatch_answered request s
  notAllowed := by
    intro target hparse hnone hsome
    -- There is a route for the path, so that some method is allowed.
    have hnonempty : router.allowed target.mapping ≠ [] := by
      rw [ne_eq, h.allowed_eq_nil_iff]
      exact fun hno => hsome.elim fun route hroute => hno route hroute.1 hroute.2
    have hhandle := h.handle_of_not_mem hparse hnone
    rw [if_neg hnonempty] at hhandle
    obtain ⟨hstate, hresult⟩ := dispatch_of_throw hhandle s
    refine ⟨hstate, _, router.allowed target.mapping, hresult, Response.status_ofError _, ?_,
      router.pairwise_allowed _, h.mem_allowed_iff _, ?_⟩
    · rw [Response.allow_ofError, HttpError.allowed, if_neg hnonempty, h.allowText_allowed]
    · rw [h.mem_allowed_iff]
      rintro ⟨route, hmem, hpath, hname⟩
      exact hnone route hmem (Prod.ext hname hpath)
  notFound := by
    intro target hparse hno
    have hhandle := h.handle_of_not_mem hparse fun route hmem hkey =>
      hno route hmem (congrArg Prod.snd hkey)
    rw [if_pos ((h.allowed_eq_nil_iff _).2 hno)] at hhandle
    obtain ⟨hstate, hresult⟩ := dispatch_of_throw hhandle s
    exact ⟨hstate, _, hresult, Response.status_ofError _, Response.allow_ofError _⟩

/-- What a request comes to goes by the routes that the router took in, and not by their
    order. -/
theorem dispatch_exact (routes : List (Route σ)) :
    (∀ route, Adds routes route) ∧
      (∀ request s,
        AnsweredBy (accepted routes) request s ((ofRoutes routes).dispatch request s)) ∧
      ∀ routes', routes'.Perm (accepted routes) → accepted routes' = routes' ∧
        ∀ request s,
          (ofRoutes routes').dispatch request s = (ofRoutes routes).dispatch request s := by
  refine ⟨adds routes, (lists_ofRoutes routes).answeredBy, fun routes' hperm => ?_⟩
  obtain ⟨hall, hsame⟩ := ofRoutes_perm hperm
  exact ⟨hall, fun request s => by rw [hsame]⟩

/-- Routes that read and write a number under one path, with one that comes too late for its
    method and one without a path. -/
def countRoutes : List (Route Int) :=
  let answer (n : Int) : Response := .plain 200 (Numeral.ofInt n)
  [⟨.post, "count", fun _ _ => do Act.modify (· + 1); return answer (← Act.get)⟩,
    ⟨.get, "count", fun _ _ => return answer (← Act.get)⟩,
    ⟨.post, "count", fun _ _ => throw (.logic "unreachable")⟩,
    ⟨.put, [], fun _ _ => throw (.logic "unreachable")⟩]

/-- Without the last two, and the other way round, the routes do the same. -/
theorem dispatch_exact_count :
    (countRoutes.take 2).reverse.Perm (accepted countRoutes) ∧
      (∀ request s, (ofRoutes (countRoutes.take 2).reverse).dispatch request s =
        (ofRoutes countRoutes).dispatch request s) ∧
      ∃ response,
        ((ofRoutes countRoutes).dispatch { token := "PUT", path := "/count/1" } 7).result =
            .ok response ∧
          response.fields.get? "Allow" = some (ascii "GET, POST") := by
  have hperm : (countRoutes.take 2).reverse.Perm (accepted countRoutes) := List.reverse_perm _
  exact ⟨hperm, ((dispatch_exact countRoutes).2.2 _ hperm).2, _, rfl, rfl⟩

end Router

end PageServer.Http
