import PageServer.Act
import PageServer.Http.Response
import PageServer.Http.Target

/-!
# Routing

A route leads from a method and a mapping path to a handler. A request whose
target does not parse is answered with 400, one whose mapping path has no route
with 404, and one whose mapping path has routes for other methods with 405 and
a list of these. A handler's HTTP failure becomes a response too; any other
failure gets through (`Router.dispatch`).
-/

namespace PageServer.Http

/-- What answers a request. -/
abbrev Handler (σ : Type) := Request → Target → Act σ Response

/-- The order of routes: by method, then by mapping path. -/
def compareRoute (a b : Bytes × Bytes) : Ordering := (compare a.1 b.1).then (compare a.2 b.2)

instance : Std.TransCmp compareRoute :=
  inferInstanceAs (Std.TransCmp (compareLex (compareOn Prod.fst) (compareOn Prod.snd)))

/-- Handlers by method and mapping path. -/
structure Router (σ : Type) where
  routes : Table compareRoute (Handler σ) := .empty

namespace Router

variable {σ : Type}

/-- Why a route is not added. -/
inductive Refusal
  | emptyPath
  | duplicate (method path : Bytes)
  deriving DecidableEq, Repr

/-- The refusal in words. -/
def Refusal.message : Refusal → Bytes
  | emptyPath => "route mapping path must not be empty"
  | duplicate method path => "duplicate route " ++ method ++ " /" ++ path

/-- The router with one more route. -/
def add? (r : Router σ) (method : Method) (path : Bytes) (handler : Handler σ) :
    Except Refusal (Router σ) :=
  if path.isEmpty then .error .emptyPath
  else if r.routes.contains (method.name, path) then .error (.duplicate method.name path)
  else .ok ⟨r.routes.insert (method.name, path) handler⟩

/-- Adds a route, which is recorded. -/
def add {τ : Type} (r : Router σ) (method : Method) (path : Bytes) (handler : Handler σ) :
    Act τ (Router σ) :=
  match r.add? method path handler with
  | .error e => throw (.invalidArgument e.message)
  | .ok r' => do
    Act.record .debug ("Router: added route " ++ method.name ++ " /" ++ path)
    return r'

/-- The methods that a mapping path has routes for. -/
def allowed (r : Router σ) (path : Bytes) : List Bytes :=
  (r.routes.keys.filter (·.2 = path)).map (·.1)

/-- The handler of a method and a mapping path. -/
def find (r : Router σ) (token path : Bytes) : Except HttpError (Handler σ) :=
  match r.routes.get? (token, path) with
  | some handler => .ok handler
  | none =>
    match r.allowed path with
    | [] => .error (.unmatched token path none)
    | methods => .error (.unmatched token path (some methods))

/-- Runs the handler that a request is for. -/
def handle (r : Router σ) (request : Request) : Act σ Response :=
  match Target.parse request.target with
  | .error fault => throw (.http fault.error)
  | .ok target =>
    match r.find request.token target.mapping with
    | .error e => throw (.http e)
    | .ok handler => handler request target

/-- Answers a request. -/
def dispatch (r : Router σ) (request : Request) : Act σ Response :=
  (r.handle request).recover fun
    | .http e => do
      Act.record .warn
        ("Router: " ++ request.token ++ " " ++ request.target ++ " -> " ++ Numeral.ofInt e.status ++
          " " ++ e.message)
      return Response.ofError e
    | other => throw other

end Router

end PageServer.Http
