import PageServer.Act
import PageServer.Http.Decoder
import PageServer.Http.Response
import PageServer.Net.ByteBuffer

/-!
# Connections

A connection takes requests from the bytes that arrive and has them answered
one at a time. While a request is out for its answer, reading is paused, and
what still arrives waits. The answer ends the connection or lets it go on with
the next request, as the request asked for; bytes that are no request are
answered with 400 and end it; a fault ends it without an answer.

What a request is answered with is up to a *dispatcher*, which runs when the
request is complete. It may answer on the spot, more than once, or leave the
answer for later, and it may fail (`Handling`). Answers on the spot do not
start the next request: that is done where the dispatcher was called.

* `Connection.receive`, `Connection.receiveFrom`: bytes arrived, in a buffer or not;
* `Connection.answer`: the answer to the request that is out;
* `Connection.fault`: something went wrong that has no answer;
* `Connection.disconnect`: the peer is gone.
-/

namespace PageServer.Http

/-- What a connection asks of the transport under it. -/
inductive Action
  | send (bytes : Bytes)
  /-- Close for writing, once everything was sent. -/
  | shutdown
  | forceClose
  | pauseReading
  | resumeReading
  deriving DecidableEq, Repr

/-- Where a connection stands. A request that is out for its answer is a part of
    the phase, so that there is one in no other phase, and always one in this: of
    a state and a request kept apart this would have to be proved. -/
inductive Phase
  | awaiting
  /-- The request is out for its answer. -/
  | dispatched (request : Request)
  | closed

/-- The name of a phase in the log. -/
def Phase.name : Phase → Bytes
  | awaiting => "kAwaitingRequest"
  | dispatched _ => "kDispatched"
  | closed => "kClosed"

/-- A connection. -/
structure Connection where
  /-- Its name in the log. -/
  name : Bytes
  phase : Phase := .awaiting
  decoder : Decoder := {}
  /-- The bytes that have arrived and belong to no decoded request. -/
  buffered : Bytes := []
  /-- How many requests were answered. -/
  served : Nat := 0

/-- What a dispatcher did before it came back: the answers it gave on the spot,
    and what it failed with after them. -/
structure Handling where
  answers : List Response := []
  fault : Option Bytes := none

/-- What is done with a complete request. -/
abbrev Dispatcher (σ : Type) := Request → Act σ Handling

/-- A connection and what it asked of its transport. -/
abbrev Moved := Connection × List Action

namespace Connection

variable {σ : Type}

/-- The beginning of the connection's log messages. -/
def label (c : Connection) : Bytes := "ConnectionPump[" ++ c.name ++ "]"

/-- Whether the connection waits for a request. -/
def isAwaiting (c : Connection) : Bool :=
  match c.phase with
  | .awaiting => true
  | _ => false

/-- Whether the connection is closed. -/
def isClosed (c : Connection) : Bool :=
  match c.phase with
  | .closed => true
  | _ => false

/-- The connection closed after its last answer. Reading goes on, so that the
    end of the peer is noticed. -/
def closeGracefully (c : Connection) : Moved :=
  ({ c with phase := .closed }, [.resumeReading, .shutdown])

/-- Ends the connection for a reason that has no answer. -/
def fault (c : Connection) (reason : Bytes) : Reported Moved :=
  match c.phase with
  | .closed => pure (c, [])
  | phase => do
    let request : Bytes :=
      match phase with
      | .dispatched r => r.token ++ " " ++ r.target
      | _ => "-"
    Reported.record .error
      ("event=connection_fault conn=" ++ c.name ++ " state=" ++ phase.name ++ " request=\"" ++
        request ++ "\" error=\"" ++ reason ++ "\"")
    return ({ c with phase := .closed }, [.forceClose])

/-- Sends the answer to the request that is out; without one the answer is
    dropped. The next request is not started. -/
def deliver (c : Connection) (response : Response) : Reported Moved :=
  match c.phase with
  | .dispatched request =>
    let response := { response with version := request.version, close := !request.keepAlive }
    let sent := response.pieces.map Action.send
    let c := { c with served := c.served + 1 }
    if request.keepAlive then pure ({ c with phase := .awaiting }, sent ++ [.resumeReading])
    else
      let (c, closing) := c.closeGracefully
      pure (c, sent ++ closing)
  | phase => do
    Reported.record .debug (c.label ++ " dropping response in state " ++ phase.name)
    return (c, [])

/-- Delivers answers one after the other. -/
def deliverAll (c : Connection) : List Response → Reported Moved
  | [] => pure (c, [])
  | response :: rest => do
    let (c, first) ← c.deliver response
    let (c, more) ← deliverAll c rest
    return (c, first ++ more)

/-- Answers bytes that are no request, and ends the connection. -/
def reject (c : Connection) (e : DecodeError) : Reported Moved := do
  Reported.record .warn
    (c.label ++ " malformed HTTP request (" ++ e.message ++ "), closing")
  let response := { Response.plain 400 "Malformed HTTP request" with close := true }
  let (c, closing) := { c with decoder := c.decoder.reset, buffered := [] }.closeGracefully
  return (c, response.pieces.map Action.send ++ closing)

/-- What decoding the buffered bytes came to. -/
inductive Progress
  /-- There is no complete request. -/
  | idle (c : Connection)
  | malformed (c : Connection) (e : DecodeError)
  /-- A request is complete and goes to the dispatcher. -/
  | ready (c : Connection) (request : Request)

/-- Decodes the buffered bytes. -/
def decode (c : Connection) : Reported Progress :=
  let fed := c.decoder.feed c.buffered
  let c' := { c with decoder := fed.decoder, buffered := fed.rest }
  ⟨match fed.status, fed.decoder.error with
    | .error, some e => .malformed c' e
    | .complete, _ =>
      .ready { c' with decoder := fed.decoder.reset, phase := .dispatched fed.decoder.request }
        fed.decoder.request
    | _, _ => .idle c',
    c.decoder.feedLog fed⟩

/-- Has a request dispatched and takes in what came of it. -/
def handOver (dispatch : Dispatcher σ) (c : Connection) (request : Request) : Act σ Moved := do
  Act.record .debug (c.label ++ " " ++ request.token ++ " " ++ request.target)
  let handling ← dispatch request
  let (c, answered) ← Act.report (c.deliverAll handling.answers)
  match handling.fault with
  | none => return (c, .pauseReading :: answered)
  | some reason =>
    let (c, ended) ← Act.report (c.fault reason)
    return (c, .pauseReading :: answered ++ ended)

/-- Goes on with the buffered bytes for at most `rounds` requests. -/
def advanceFor (dispatch : Dispatcher σ) : Nat → Connection → Act σ Moved
  | 0, c => pure (c, [])
  | rounds + 1, c =>
    if !c.isAwaiting || c.buffered.isEmpty then pure (c, [])
    else do
      match ← Act.report c.decode with
      | .idle c' => return (c', [])
      | .malformed c' e => Act.report (c'.reject e)
      | .ready c' request =>
        let (c', first) ← handOver dispatch c' request
        let (c', more) ← advanceFor dispatch rounds c'
        return (c', first ++ more)

/-- Goes on with the buffered bytes until a request is out or they run dry. A
    request takes at least one byte. -/
def advance (dispatch : Dispatcher σ) (c : Connection) : Act σ Moved :=
  advanceFor dispatch c.buffered.length c

/-- Takes in bytes that arrived. -/
def receive (dispatch : Dispatcher σ) (c : Connection) (bytes : Bytes) : Act σ Moved :=
  if c.isClosed then pure (c, [])
  else advance dispatch { c with buffered := c.buffered ++ bytes }

/-- Takes in the bytes of a buffer, which is left empty. -/
def receiveFrom (dispatch : Dispatcher σ) (c : Connection) (buffer : ByteBuffer) :
    Act σ (Moved × ByteBuffer) := do
  let moved ← c.receive dispatch buffer.unread
  return (moved, buffer.clear)

/-- Takes in the answer to the request that is out, and goes on. -/
def answer (dispatch : Dispatcher σ) (c : Connection) (response : Response) : Act σ Moved := do
  let out := match c.phase with
    | .dispatched _ => true
    | _ => false
  let (c, first) ← Act.report (c.deliver response)
  if out then
    let (c, more) ← advance dispatch c
    return (c, first ++ more)
  else return (c, first)

/-- The peer is gone. -/
def disconnect (c : Connection) : Reported Connection := do
  if !c.isClosed then
    Reported.record .debug (c.label ++ " peer disconnected in state " ++ c.phase.name)
  return { c with phase := .closed }

/-- The record made when the connection is given up. -/
def farewell (c : Connection) : Log.Record :=
  ⟨.debug, "ConnectionPump::dtor[" ++ c.name ++ "] served=" ++ Numeral.ofNat c.served ++
    " state=" ++ c.phase.name⟩

end Connection

end PageServer.Http
