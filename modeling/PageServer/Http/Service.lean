import PageServer.Http.Connection
import PageServer.Http.Router

/-!
# Connections answered by a router

The dispatcher of a server has each request answered by the router on the spot.
A failure that the router lets through is a fault of the connection.
-/

namespace PageServer.Http

/-- What a response or a failure is to the connection that waits for it. -/
def Handling.ofResult : Except Failure Response → Handling
  | .ok response => { answers := [response] }
  | .error e => { fault := some e.message }

/-- Has a request answered by the router on the spot. -/
def Router.answer {σ : Type} (router : Router σ) : Dispatcher σ := fun request => do
  return Handling.ofResult (← (router.dispatch request).attempt)

end PageServer.Http
