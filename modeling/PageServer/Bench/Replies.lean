import PageServer.Http.Service

/-!
# Handlers and dispatchers to try things out with

Handlers that need no backend: a fixed response, a failure, and an echo of the
request. A dispatcher can be told for each request what to do with it: answer
it at once, once or twice, leave it for later, or fail before or after an
answer.
-/

namespace PageServer.Bench

open Http

/-- What a route of the bench answers. -/
inductive Reply
  | fixed (response : Response)
  | echo
  | failing (failure : Failure)

/-- The method, the mapping path, the segments, the parameters and the body of
    a request, with bars between them. -/
def echoText (request : Request) (target : Target) : Bytes :=
  Bytes.join "|"
    ([request.token, target.mapping] ++ target.segments ++
      target.parameters.entries.map (fun p => (p.1 ++ "=" ++ p.2 : Bytes)) ++ [request.body])

/-- The handler of a reply. -/
def Reply.handler {σ : Type} : Reply → Handler σ
  | fixed response => fun _ _ => pure response
  | echo => fun request target => pure (Response.plain 200 (echoText request target))
  | failing failure => fun _ _ => throw failure

/-- What a dispatcher does with a request. -/
inductive Mode
  /-- Answers on the spot. -/
  | inline
  /-- Leaves the answer for later. -/
  | defer
  /-- Answers on the spot, twice. -/
  | double
  /-- Fails. -/
  | fails
  /-- Answers on the spot and fails then. -/
  | answersThenFails
  deriving DecidableEq, Repr

/-- The requests left for later, the oldest first, and the modes of the
    requests to come. -/
structure Desk where
  modes : List Mode := []
  waiting : List Request := []

/-- The mode of the next request; the last mode serves all further ones. -/
def Desk.nextMode (d : Desk) : Mode × Desk :=
  match d.modes with
  | [] => (.inline, d)
  | [mode] => (mode, d)
  | mode :: rest => (mode, { d with modes := rest })

/-- The first handling and then, unless it failed, the second. -/
def bothHandlings {σ : Type} (first : Act σ Handling) (second : Act σ Handling) :
    Act σ Handling := do
  let a ← first
  match a.fault with
  | some _ => return a
  | none =>
    let b ← second
    return { answers := a.answers ++ b.answers, fault := b.fault }

/-- Handles each request as its mode says. -/
def dispatch (router : Router Desk) : Dispatcher Desk := fun request s =>
  let (mode, desk) := s.nextMode
  (match mode with
    | .inline => router.answer request
    | .defer => do
      Act.modify fun d => { d with waiting := d.waiting ++ [request] }
      return {}
    | .double =>
      bothHandlings (router.answer request) (router.answer request)
    | .fails => pure { fault := some "collaborator exploded" }
    | .answersThenFails =>
      bothHandlings (router.answer request) (pure { fault := some "late explosion" })) desk

/-- Has the oldest waiting request answered. -/
def respond (router : Router Desk) (c : Connection) : Act Desk Moved := do
  let desk ← Act.get
  match desk.waiting with
  | [] => return (c, [])
  | request :: rest =>
    Act.modify fun d => { d with waiting := rest }
    match ← (router.dispatch request).attempt with
    | .ok response => c.answer (dispatch router) response
    | .error e => Act.report (c.fault e.message)

end PageServer.Bench
