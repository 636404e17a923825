import PageServer.Http.Service
import PageServer.Net.Address
import PageServer.Server.Options
import PageServer.Worker.Routes

/-!
# Servers

A server has an address, the routes of the worker, and a gauge that tells how
many connections it has open. Several servers may share a registry of metrics;
the gauge belongs to the first of them, and goes away with the first that is
closed.

* `Server.create`: makes a server;
* `Server.start`: has it listen;
* `Server.close`: takes it away.
-/

namespace PageServer

namespace Metrics

/-- Whether a server could register the gauge of its connections, and the
    registry after it. -/
def showConnections (m : Metrics) (server : Nat) : Bool × Metrics :=
  m.registerGauge Worker.activeConnections (.connections server)

/-- The registry without the gauge of connections. -/
def hideConnections (m : Metrics) : Metrics := m.removeGauge Worker.activeConnections

end Metrics

/-- A server, on states of type `σ`. -/
structure Server (σ : Type) where
  /-- The number that tells it from other servers of the registry. -/
  id : Nat
  options : ServerOptions
  address : Net.Address
  router : Http.Router σ
  metrics : Part σ Metrics
  /-- How many connections it has taken. -/
  accepted : Nat := 0

namespace Server

variable {σ : Type}

/-- The name of servers in the log. -/
def name : Bytes := "http"

/-- The address that options ask for. -/
def addressOf (o : ServerOptions) : Except Failure Net.Address :=
  match Net.Address.read o.ip (UInt16.ofNat o.port) with
  | some address => .ok address
  | none => .error (.invalidArgument (Net.Address.refusal o.ip))

/-- The failure of listening at an address that the machine refuses. -/
def cannotBind (address : Net.Address) (reason : Bytes) : Failure :=
  .unexpected ("bind " ++ address.text ++ ": " ++ reason)

/-- Makes a server. Without an address that the machine lets it have there is
    none. -/
def create (machine : Net.Machine) (id : Nat) (o : ServerOptions) (desk : Worker.Desk σ) :
    Act σ (Server σ) := do
  let address ← Act.ofExcept (addressOf o)
  if let some reason := machine.refuses address then throw (cannotBind address reason)
  let router ← desk.install {}
  let m ← Act.within desk.metrics Act.get
  let (shown, m) := m.showConnections id
  Act.within desk.metrics (Act.modify fun _ => m)
  if !shown then
    Act.record .warn (Worker.activeConnections ++ " already registered by another server")
  return { id, options := o, address, router, metrics := desk.metrics }

/-- Has a server listen. -/
def start (server : Server σ) : Act σ Unit :=
  Act.record .info
    ("HttpServer[" ++ name ++ "] starts listening on " ++ server.address.text ++
      " routes=" ++ Numeral.ofNat server.router.routes.size ++
      " workers=" ++ Numeral.ofNat server.options.workerThreads)

/-- Takes a server away. -/
def close (server : Server σ) : Act σ Unit := do
  Act.record .info
    ("WorkerHttpServer on " ++ server.address.text ++ " accepted " ++
      Numeral.ofNat server.accepted ++ " connections")
  Act.within server.metrics (Act.modify Metrics.hideConnections)

end Server

end PageServer
