import PageServer.Server.Lifetime

/-!
# Exchanges with a server

A client connects, sends its bytes part by part, may then say that it has no
more to send, and takes what it receives until the server closes the connection.
The server answers in the order of the requests. A client that has no more to
send gets the answers to its complete requests, and the rest of its bytes is
dropped.

Between the two is a link. On one that is dead no bytes arrive: the client waits
in vain and gives up.
-/

namespace PageServer

open Http

/-- What is between a client and the server. -/
inductive Link
  | alive
  | dead
  deriving DecidableEq, Repr

/-- What a client does. -/
structure Client where
  /-- What it sends, part by part. -/
  parts : List Bytes
  /-- Whether it says at the end that it has no more to send. -/
  halfCloses : Bool := false
  deriving DecidableEq, Repr

/-- What a client received. -/
structure Received where
  bytes : Bytes := []
  /-- Whether it gave up before the server closed the connection. -/
  gaveUp : Bool := false
  deriving DecidableEq, Repr

/-- The bytes that actions send. -/
def sentBytes (actions : List Http.Action) : Bytes :=
  actions.flatMap fun
    | .send bytes => bytes
    | _ => []

namespace Server

variable {σ : Type}

/-- Says how many connections are open. -/
def setOpen (server : Server σ) (count : Nat) : Act σ Unit :=
  Act.within server.metrics (Act.modify fun m => m.setConnections server.id count)

/-- Takes in parts one after the other. -/
def receiveAll (server : Server σ) (c : Connection) : List Bytes → Act σ Moved
  | [] => pure (c, [])
  | part :: rest => do
    let (c, first) ← c.receive server.router.answer part
    let (c, more) ← receiveAll server c rest
    return (c, first ++ more)

/-- The server with one more connection taken. -/
def accept (server : Server σ) : Server σ := { server with accepted := server.accepted + 1 }

/-- The name of the last connection taken. -/
def connectionName (server : Server σ) : Bytes := name ++ "#" ++ Numeral.ofNat server.accepted

/-- What a client receives over a link that is alive. -/
def serve (server : Server σ) (client : Client) : Act σ Received := do
  server.setOpen 1
  let (c, actions) ← server.receiveAll { name := server.connectionName } client.parts
  let c ← if client.halfCloses then Act.report c.disconnect else pure c
  server.setOpen 0
  return { bytes := sentBytes actions, gaveUp := !c.isClosed }

/-- What a client receives over a link. -/
def exchange (server : Server σ) (link : Link) (client : Client) : Act σ Received :=
  match link with
  | .alive => server.serve client
  | .dead => pure { gaveUp := true }

end Server

end PageServer
