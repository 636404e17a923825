import PageServer.Http.Router
import PageServer.Proofs.Act
import PageServer.Proofs.Table

/-!
# What a router answers

A client is *told* of a failure if it is an HTTP failure with one of the usual statuses
(`Failure.IsTold`). A response is *complete* if it has one of these statuses, or 200, and
a field that tells the length of its content (`Response.Complete`). A handler *answers* if
it ends in the one or the other (`Answers`).

What a request comes to goes by the handler of its route, and by the failures that the
router itself has for a target, a method or a path (`Router.handle_ends`). Each HTTP
failure becomes a response, and a complete one if clients are to be told of it
(`Router.dispatch_ends`, `Response.complete_ofError`).
-/

namespace PageServer

open Http

/-- A client is told of the failure, with one of the usual statuses. -/
def Failure.IsTold (e : Failure) : Prop :=
  ∃ h : HttpError, e = .http h ∧ (h.status = 400 ∨ h.status = 404 ∨ h.status = 405 ∨ h.status = 500)

namespace Http

/-! ### Complete responses -/

/-- The response has one of the usual statuses, and tells the length of its content. -/
structure Response.Complete (r : Response) : Prop where
  status : r.status = 200 ∨ r.status = 400 ∨ r.status = 404 ∨ r.status = 405 ∨ r.status = 500
  length : r.fields.get? "Content-Length" = some (Numeral.ofNat r.content.bytes.length)

namespace Response

variable {r : Response} {status : Int}

theorem complete_withContent (content : Content)
    (h : r.status = 200 ∨ r.status = 400 ∨ r.status = 404 ∨ r.status = 405 ∨ r.status = 500) :
    (r.withContent content).Complete where
  status := h
  length := by
    rw [withContent, withField, Table.get?_insert, if_pos Std.ReflCmp.compare_self]

theorem complete_plain (text : Bytes)
    (h : status = 200 ∨ status = 400 ∨ status = 404 ∨ status = 405 ∨ status = 500) :
    (plain status text).Complete := complete_withContent _ h

theorem complete_json (document : Bytes) : (json 200 document).Complete :=
  complete_withContent _ (.inl rfl)

/-- A field of another name does not matter. -/
theorem Complete.withField (h : r.Complete) {name : Bytes} (hname : name ≠ "Content-Length")
    (value : Bytes) : (r.withField name value).Complete where
  status := h.status
  length := by
    rw [Response.withField, Table.get?_insert, if_neg]
    · exact h.length
    · rw [Std.LawfulEqCmp.compare_eq_iff_eq]
      exact hname.symm

theorem status_ofError (e : HttpError) : (ofError e).status = e.status := by
  rw [ofError]
  split <;> rfl

theorem content_ofError (e : HttpError) : (ofError e).content = .buffered e.message := by
  rw [ofError]
  split <;> rfl

/-- The methods to use instead are told if there are any. -/
theorem allow_ofError (e : HttpError) :
    (ofError e).fields.get? "Allow" =
      if e.allowed = [] then none else some (allowText e.allowed) := by
  simp only [ofError, List.isEmpty_iff]
  split
  · rfl
  · rw [withField, Table.get?_insert, if_pos Std.ReflCmp.compare_self]

theorem complete_ofError {e : HttpError}
    (h : e.status = 400 ∨ e.status = 404 ∨ e.status = 405 ∨ e.status = 500) :
    (ofError e).Complete := by
  rw [ofError]
  split
  · exact complete_plain _ (.inr h)
  · exact (complete_plain _ (.inr h)).withField (by decide) _

end Response

/-- The action ends in a complete response, or in a failure that a client is told of. -/
def Answers {σ : Type} (a : Act σ Response) (s : σ) : Prop :=
  a.Ends s (fun r _ => r.Complete) fun e _ => e.IsTold

/-! ### Routes -/

instance : Std.LawfulEqCmp compareRoute where
  eq_of_compare {a b} h := by
    rw [compareRoute, Ordering.then_eq_eq] at h
    exact Prod.ext (Std.LawfulEqCmp.eq_of_compare h.1) (Std.LawfulEqCmp.eq_of_compare h.2)

namespace Router

variable {σ : Type} {router : Router σ} {request : Request} {s : σ}

/-- A route that is new is added, and all others stay. -/
theorem add?_eq_ok {method : Method} {path : Bytes} (handler : Handler σ) (hpath : path ≠ [])
    (hnew : router.routes.get? (method.name, path) = none) :
    ∃ router', router.add? method path handler = .ok router' ∧
      ∀ key, router'.routes.get? key =
        if key = (method.name, path) then some handler else router.routes.get? key := by
  refine ⟨⟨router.routes.insert (method.name, path) handler⟩, ?_, fun key => ?_⟩
  · have habsent : ¬ router.routes.contains (method.name, path) = true := by
      simp [Table.contains, hnew]
    rw [add?, if_neg (mt List.isEmpty_iff.1 hpath), if_neg habsent]
  · simp only [Table.get?_insert, Std.LawfulEqCmp.compare_eq_iff_eq]

/-! ### Answers -/

/-- What a request comes to if its handler ends in these postconditions. They have to
    hold of the failures that the router itself has for a request: for a target that does
    not parse, and for a method or a path without a route. -/
theorem handle_ends {Q : Response → σ → Prop} {E : Failure → σ → Prop}
    (hfault : ∀ fault, Target.parse request.target = .error fault → E (.http fault.error) s)
    (hunmatched : ∀ target, Target.parse request.target = .ok target →
      router.routes.get? (request.token, target.mapping) = none → ∀ allowed,
        E (.http (.unmatched request.token target.mapping allowed)) s)
    (hhandler : ∀ target handler, Target.parse request.target = .ok target →
      router.routes.get? (request.token, target.mapping) = some handler →
        (handler request target).Ends s Q E) :
    (router.handle request).Ends s Q E := by
  rw [handle]
  cases hparse : Target.parse request.target with
  | error fault => exact Act.ends_throw (hfault fault hparse)
  | ok target =>
    dsimp only
    rw [Router.find]
    cases hget : router.routes.get? (request.token, target.mapping) with
    | some handler => exact hhandler target handler hparse hget
    | none =>
      -- Whether the path has other methods only changes what the failure tells.
      cases hallowed : router.allowed target.mapping with
      | nil => exact Act.ends_throw (hunmatched target hparse hget _)
      | cons method methods => exact Act.ends_throw (hunmatched target hparse hget _)

/-- A router turns HTTP failures into responses. Any other failure gets through. -/
theorem dispatch_ends {Q : Response → σ → Prop} {E : Failure → σ → Prop}
    (h : (router.handle request).Ends s Q E)
    (htold : ∀ (e : HttpError) s', E (.http e) s' → Q (Response.ofError e) s') :
    (router.dispatch request).Ends s Q fun e s' => E e s' ∧ ∀ h, e ≠ .http h := by
  rw [dispatch]
  refine Act.ends_recover (h.mono (fun _ _ => id) fun e s' he => ?_)
  cases e with
  | http e =>
    exact Act.ends_bind (Act.Yields.ends (Act.yields_record (Act.ends_pure (htold e s' he))))
  | _ => exact Act.ends_throw ⟨he, nofun⟩

end Router

end Http

end PageServer
