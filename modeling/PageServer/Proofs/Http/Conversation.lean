import PageServer.Proofs.Http.Intake
import PageServer.Proofs.Http.Lifecycle
import PageServer.Server.Exchange

/-!
# What a client is told

A client sends a stream of bytes and is told something in return. What that is
follows from the stream alone (`reference`): the requests are taken off the
stream at once and answered one after the other, up to one that ends the
connection, and what is no request is answered with 400.

A connection gets the stream in pieces, and its dispatcher answers each request
either on the spot or when a later turn asks for it (`Router.scheduled`,
`Connection.converse`). Neither the pieces nor the schedule make a difference:
once all requests handed over are answered, the client was told what it was to
be told (`Connection.converse_reference`). At any time, what was sent and what is
still owed make up the reference (`Tracks`).
-/

namespace PageServer.Http

/-! ### The reference -/

/-- What a client is told, and whether the connection is closed then. -/
structure Told where
  bytes : Bytes := []
  ended : Bool := false

namespace Told

/-- The same with bytes told before it. -/
def after (front : Bytes) (t : Told) : Told := { t with bytes := front ++ t.bytes }

theorem after_after (front back : Bytes) (t : Told) :
    (t.after back).after front = t.after (front ++ back) := by
  simp only [after, List.append_assoc]

end Told

/-- The answers to requests one after the other, up to one that ends the
    connection. `failed` says that no request but an error follows. -/
def answers (route : Request → Response) (failed : Bool) : List Request → Told
  | [] => if failed then { bytes := Response.badRequest.bytes, ended := true } else {}
  | request :: rest =>
    let written := ((route request).for request).bytes
    if request.keepAlive then (answers route failed rest).after written
    else { bytes := written, ended := true }

/-- The answers to what was taken off a stream. -/
def Intake.answers (route : Request → Response) (i : Intake) : Told :=
  Http.answers route (i.last.status == .error) i.requests

theorem Intake.answers_after (route : Request → Response) (request : Request) (i : Intake) :
    (i.after [request]).answers route =
      if request.keepAlive then (i.answers route).after ((route request).for request).bytes
      else { bytes := ((route request).for request).bytes, ended := true } := rfl

/-- What the client is told that sent the stream. -/
def reference (route : Request → Response) (stream : Bytes) : Told :=
  (({} : Decoder).drain stream).answers route

/-! ### Schedules -/

/-- A handler whose outcome is up to the request alone: a response or an HTTP
    failure. -/
def Handler.IsFunction {σ : Type} (handler : Handler σ) : Prop :=
  ∀ request target, ∃ answer : Except HttpError Response,
    ∀ s, (handler request target s).result = answer.mapError .http

/-- A router all of whose handlers are such. -/
def Router.IsFunction {σ : Type} (router : Router σ) : Prop :=
  ∀ key handler, router.routes.get? key = some handler → handler.IsFunction

/-- Requests that wait for their answers, the oldest first, beside the state of
    the handlers. -/
structure Backlog (σ : Type) where
  inner : σ
  /-- How many requests were handed over. -/
  taken : Nat := 0
  waiting : List Request := []

/-- What the handlers see. -/
def Backlog.innerPart {σ : Type} : Part (Backlog σ) σ where
  get := inner
  set s b := { b with inner := s }

/-- Answers a request on the spot, or leaves it waiting: what is done with the
    `n`-th is up to `later n`. -/
def Router.scheduled {σ : Type} (router : Router σ) (later : Nat → Bool) :
    Dispatcher (Backlog σ) := fun request => do
  let backlog ← Act.get
  Act.modify fun b => { b with taken := b.taken + 1 }
  if later backlog.taken then
    Act.modify fun b => { b with waiting := b.waiting ++ [request] }
    return {}
  else Act.within Backlog.innerPart (router.answer request)

/-- One turn of a conversation. -/
inductive Turn
  | arrive (bytes : Bytes)
  /-- Bytes arrive in a buffer. -/
  | arriveIn (buffer : ByteBuffer)
  /-- The oldest waiting request is answered, if there is one. -/
  | complete

/-- The bytes that arrive. -/
def Turn.bytes : Turn → Bytes
  | arrive bytes => bytes
  | arriveIn buffer => buffer.unread
  | complete => []

namespace Connection

variable {σ : Type} (router : Router σ) (later : Nat → Bool)

/-- Answers the oldest waiting request. -/
def complete (c : Connection) : Act (Backlog σ) Moved := do
  match (← Act.get).waiting with
  | [] => return (c, [])
  | request :: rest =>
    Act.modify fun b => { b with waiting := rest }
    match ← (Act.within Backlog.innerPart (router.dispatch request)).attempt with
    | .ok response => c.answer (router.scheduled later) response
    | .error e => c.on (router.scheduled later) (.fault e.message)

/-- What a turn makes of the connection. -/
def turn (c : Connection) : Turn → Act (Backlog σ) Moved
  | .arrive bytes => c.on (router.scheduled later) (.arrive bytes)
  | .arriveIn buffer => c.on (router.scheduled later) (.arriveIn buffer)
  | .complete => c.complete router later

/-- What turns one after the other make of the connection. -/
def converse : Connection → List Turn → Act (Backlog σ) Moved := through (turn router later)

end Connection

/-! ### What is sent -/

theorem sentBytes_append (front back : List Action) :
    sentBytes (front ++ back) = sentBytes front ++ sentBytes back := List.flatMap_append

theorem Response.sentBytes_sends (response : Response) :
    sentBytes response.sends = response.bytes := by
  cases hcontent : response.content <;>
    simp [sends, pieces, Response.bytes, Content.bytes, sentBytes, hcontent]

theorem Response.closes_sends (response : Response) : response.sends.filter Action.closes = [] :=
  List.filter_eq_nil_iff.2 fun a ha => by simp [(response.sends_quiet a ha).1]

/-! ### Routes -/

section Routes

variable {σ : Type} {router : Router σ}

/-- The router has the response that the route says for each request, in every
    state. -/
def Router.Answers (router : Router σ) (route : Request → Response) : Prop :=
  ∀ request s, (router.dispatch request s).result = .ok (route request)

/-- What the routing of a request to a function comes to is up to the request
    alone. -/
theorem Router.IsFunction.handle (h : router.IsFunction)
    (request : Request) : ∃ answer : Except HttpError Response,
      ∀ s, (router.handle request s).result = answer.mapError .http := by
  cases htarget : Target.parse request.target with
  | error fault =>
    refine ⟨.error fault.error, fun s => ?_⟩
    simp only [Router.handle, htarget]
    rfl
  | ok target =>
    cases hfind : router.find request.token target.mapping with
    | error e =>
      refine ⟨.error e, fun s => ?_⟩
      simp only [Router.handle, htarget, hfind]
      rfl
    | ok handler =>
      -- The handler that was found is one of the routes.
      have hget : router.routes.get? (request.token, target.mapping) = some handler := by
        rw [Router.find] at hfind
        split at hfind
        · next hget =>
          cases hfind
          exact hget
        · split at hfind <;> cases hfind
      obtain ⟨answer, hanswer⟩ := h _ _ hget request target
      refine ⟨answer, fun s => ?_⟩
      simp only [Router.handle, htarget, hfind]
      exact hanswer s

/-- A router of functions has a response for each request. -/
theorem Router.IsFunction.exists_answers (h : router.IsFunction) :
    ∃ route, router.Answers route := by
  have hresponse (request : Request) : ∃ response : Response,
      ∀ s, (router.dispatch request s).result = .ok response := by
    obtain ⟨answer, hanswer⟩ := h.handle request
    cases answer with
    | error e =>
      refine ⟨Response.ofError e, fun s => ?_⟩
      rw [Router.dispatch, Act.result_recover_of_error (hanswer s)]
      rfl
    | ok response =>
      refine ⟨response, fun s => ?_⟩
      rw [Router.dispatch, Act.result_recover_of_ok (hanswer s)]
  choose route hroute using hresponse
  exact ⟨route, hroute⟩

end Routes

/-! ### What is owed -/

/-- What the client is still owed if more bytes follow: an answer to the request
    that is out, and to those in the bytes. -/
def Connection.owed (route : Request → Response) (c : Connection) (more : Bytes) : Told :=
  match c.phase with
  | .closed => { ended := true }
  | phase => ((c.decoder.drain (c.buffered ++ more)).after phase.request?.toList).answers route

/-- A connection that got the stream, with what it asked of its transport and
    the requests that wait for their answers. -/
structure Tracks (route : Request → Response) (stream : Bytes) (c : Connection)
    (acts : List Action) (waiting : List Request) : Prop where
  /-- However the stream goes on, what was sent and what is owed make up what the
      client is to be told. -/
  reference_eq : ∀ more,
    reference route (stream ++ more) = (c.owed route more).after (sentBytes acts)
  /-- The transport is closed with the connection, after all was sent. -/
  closes_eq : acts.filter Action.closes = if c.isClosed then [.shutdown] else []
  /-- The request that is out waits for its answer. -/
  waiting_eq : waiting = c.phase.request?.toList

namespace Tracks

variable {route : Request → Response} {stream : Bytes} {c : Connection} {acts : List Action}
  {waiting : List Request} {request : Request} {d : Decoder} {rest : Bytes}

theorem start (name : Bytes) : Tracks route [] { name } [] [] where
  reference_eq _ := rfl
  closes_eq := rfl
  waiting_eq := rfl

/-- An open connection has not closed its transport. -/
theorem closes_eq_nil (h : Tracks route stream c acts waiting) (hphase : c.phase ≠ .closed) :
    acts.filter Action.closes = [] := by
  rw [h.closes_eq, if_neg (mt Connection.isClosed_iff.1 hphase)]

/-- Bytes arrive at a closed connection. -/
theorem ignore (h : Tracks route stream c acts waiting) (hphase : c.phase = .closed)
    (bytes : Bytes) : Tracks route (stream ++ bytes) c acts waiting where
  reference_eq more := by
    rw [List.append_assoc, h.reference_eq, Connection.owed, Connection.owed, hphase]
  closes_eq := h.closes_eq
  waiting_eq := h.waiting_eq

/-- Bytes arrive at an open connection. -/
theorem arrive (h : Tracks route stream c acts waiting) (bytes : Bytes) :
    Tracks route (stream ++ bytes) { c with buffered := c.buffered ++ bytes } acts waiting where
  reference_eq more := by
    rw [List.append_assoc, h.reference_eq, Connection.owed, Connection.owed]
    simp only [List.append_assoc]
  closes_eq := h.closes_eq
  waiting_eq := h.waiting_eq

/-- The buffered bytes hold no request. -/
theorem idle (h : Tracks route stream c acts waiting) (hphase : c.phase = .awaiting)
    (hwaits : c.decoder.Waits []) (hfeed : c.decoder.feed c.buffered = ⟨.needMore, d, rest⟩) :
    Tracks route stream { c with decoder := d, buffered := rest } acts waiting where
  reference_eq more := by
    have hdrain : c.decoder.drain (c.buffered ++ more) = d.drain (rest ++ more) := by
      rw [Decoder.drain_append hwaits, Decoder.drain_of_needMore hfeed, Intake.add,
        Intake.after_nil]
    rw [h.reference_eq]
    simp only [Connection.owed, hphase, hdrain]
  closes_eq := h.closes_eq
  waiting_eq := h.waiting_eq

/-- The buffered bytes hold an error. -/
theorem reject (h : Tracks route stream c acts waiting) (hphase : c.phase = .awaiting)
    (hwaits : c.decoder.Waits []) (hfeed : c.decoder.feed c.buffered = ⟨.error, d, rest⟩) :
    Tracks route stream { c with decoder := d, buffered := rest }.rejected.1
      (acts ++ { c with decoder := d, buffered := rest }.rejected.2) waiting where
  reference_eq more := by
    obtain ⟨e, he⟩ := Decoder.error_of_feed hfeed
    -- What arrives later is not looked at.
    have hdrain : c.decoder.drain (c.buffered ++ more) = { last := ⟨.error, d, rest ++ more⟩ } := by
      rw [Decoder.drain_append hwaits, Decoder.drain_of_fail hfeed, Intake.add,
        Decoder.drain_of_error he, Intake.after_nil]
    have howed : c.owed route more = { bytes := Response.badRequest.bytes, ended := true } := by
      simp only [Connection.owed, hphase, hdrain]
      rfl
    rw [h.reference_eq, howed, Connection.rejected, sentBytes_append, sentBytes_append,
      Response.sentBytes_sends, ← Told.after_after, ← Told.after_after]
    rfl
  closes_eq := by
    rw [List.filter_append, h.closes_eq_nil (by simp [hphase]), Connection.rejected,
      List.filter_append, Response.closes_sends]
    rfl
  waiting_eq := by
    rw [h.waiting_eq, hphase]
    rfl

/-- A request is handed over. -/
theorem handOver (h : Tracks route stream c acts waiting) (hphase : c.phase = .awaiting)
    (hwaits : c.decoder.Waits []) (hfeed : c.decoder.feed c.buffered = ⟨.complete, d, rest⟩) :
    Tracks route stream (c.taking d rest) (acts ++ [.pauseReading]) [d.request] where
  reference_eq more := by
    have hdrain : c.decoder.drain (c.buffered ++ more) =
        (d.reset.drain (rest ++ more)).after [d.request] := by
      rw [Decoder.drain_append hwaits, Decoder.drain_of_complete hwaits hfeed, Intake.after_add,
        ← Decoder.drain_append (Decoder.waits_reset d)]
    rw [h.reference_eq, sentBytes_append, ← Told.after_after]
    simp only [Connection.owed, hphase, hdrain]
    rfl
  closes_eq := by
    rw [List.filter_append, h.closes_eq_nil (by simp [hphase])]
    rfl
  waiting_eq := rfl

/-- The request that is out is answered. -/
theorem deliver (h : Tracks route stream c acts waiting) (hphase : c.phase = .dispatched request) :
    Tracks route stream (c.delivered request (route request)).1
      (acts ++ (c.delivered request (route request)).2) [] where
  reference_eq more := by
    have howed : c.owed route more =
        ((c.decoder.drain (c.buffered ++ more)).after [request]).answers route := by
      simp only [Connection.owed, hphase]
      rfl
    rw [h.reference_eq, howed, Intake.answers_after, sentBytes_append, ← Told.after_after,
      Connection.delivered]
    split
    · -- The connection goes on with the bytes behind the request.
      rw [sentBytes_append, Response.sentBytes_sends, ← Told.after_after]
      rfl
    · rw [sentBytes_append, Response.sentBytes_sends, ← Told.after_after]
      simp [Connection.owed, Told.after, sentBytes]
  closes_eq := by
    rw [List.filter_append, h.closes_eq_nil (by simp [hphase]), Connection.delivered]
    split <;> (rw [List.filter_append, Response.closes_sends]; rfl)
  waiting_eq := by
    rw [Connection.delivered]
    split <;> rfl

end Tracks

/-! ### Conversations -/

namespace Connection

variable {σ : Type} {router : Router σ} {later : Nat → Bool} {route : Request → Response}
  {stream : Bytes} {c : Connection} {acts : List Action} {b : Backlog σ}

/-- A request that is left waiting. -/
theorem handled_nothing (c : Connection) : c.handled {} = (c, [.pauseReading]) := rfl

/-- A request that is answered on the spot. -/
theorem handled_response {request : Request} (h : c.phase = .dispatched request)
    (response : Response) :
    c.handled { answers := [response] } = ((c.delivered request response).1,
      [.pauseReading] ++ (c.delivered request response).2) := by
  simp [handled, deliverAll_cons h]

theorem tracks_kept (h : router.Answers route) (later : Nat → Bool) (stream : Bytes) :
    Kept (router.scheduled later) fun c acts b => Tracks route stream c acts b.waiting where
  idle h hphase hwaits hfeed := h.idle hphase hwaits hfeed
  reject h hphase hwaits hfeed := h.reject hphase hwaits hfeed
  handOver {c acts b d rest} htracks hphase hwaits hfeed := by
    have hnone : b.waiting = [] := by
      rw [htracks.waiting_eq, hphase]
      rfl
    have hout := htracks.handOver hphase hwaits hfeed
    refine Act.yields_bind (Act.yields_get (Act.yields_bind (Act.yields_modify ?_)))
    split
    · -- The request is the only one that waits.
      refine Act.yields_bind (Act.yields_modify (Act.yields_pure ?_))
      rw [handled_nothing, hnone]
      exact hout
    · -- The request is answered before the dispatcher comes back.
      refine Act.yields_within (Act.yields_bind (Act.yields_attempt (Act.yields_pure ?_)))
      rw [h, Handling.ofResult, handled_response rfl, ← List.append_assoc]
      have hphase : (c.taking d rest).phase = .dispatched d.request := rfl
      rw [hnone]
      exact hout.deliver hphase

theorem receive_tracks (h : router.Answers route) (bytes : Bytes)
    (htracks : Tracks route stream c acts b.waiting) (hrests : c.Rests) :
    (c.receive (router.scheduled later) bytes).Yields b fun m b' =>
      Tracks route (stream ++ bytes) m.1 (acts ++ m.2) b'.waiting ∧ m.1.Rests :=
  receive_yields (tracks_kept h later (stream ++ bytes)) hrests
    (fun hphase => htracks.ignore hphase bytes) (fun _ => htracks.arrive bytes)

theorem complete_tracks (h : router.Answers route)
    (htracks : Tracks route stream c acts b.waiting) (hrests : c.Rests) :
    (c.complete router later).Yields b fun m b' =>
      Tracks route stream m.1 (acts ++ m.2) b'.waiting ∧ m.1.Rests := by
  refine Act.yields_bind (Act.yields_get ?_)
  cases hwaiting : b.waiting with
  | nil =>
    refine Act.yields_pure ⟨?_, hrests⟩
    rw [List.append_nil]
    exact htracks
  | cons request rest =>
    -- One request can be out, so that it is the one that waits.
    obtain ⟨hphase, rfl⟩ : c.phase = .dispatched request ∧ rest = [] := by
      have hout := htracks.waiting_eq
      rw [hwaiting] at hout
      cases hphase : c.phase <;> rw [hphase] at hout <;> cases hout
      exact ⟨rfl, rfl⟩
    refine Act.yields_bind (Act.yields_modify (Act.yields_bind (Act.yields_attempt ?_)))
    -- What the router says to the request does not depend on when it is asked.
    have hresult : (Act.within Backlog.innerPart (router.dispatch request)
        { b with waiting := [] }).result = .ok (route request) := h request b.inner
    rw [hresult]
    refine answer_yields (tracks_kept h later stream) hrests ?_ ?_
    · intro request' hphase'
      rw [hphase] at hphase'
      cases hphase'
      exact htracks.deliver hphase
    · exact fun hnot => absurd hphase (hnot request)

theorem turn_tracks (h : router.Answers route) (later : Nat → Bool) (t : Turn)
    (hI : Tracks route stream c acts b.waiting ∧ c.Rests) :
    (c.turn router later t).Yields b fun m b' =>
      Tracks route (stream ++ t.bytes) m.1 (acts ++ m.2) b'.waiting ∧ m.1.Rests := by
  obtain ⟨htracks, hrests⟩ := hI
  cases t with
  | arrive bytes => exact receive_tracks h bytes htracks hrests
  | arriveIn buffer => exact on_arriveIn_yields (receive_tracks h buffer.unread htracks hrests)
  | complete =>
    rw [Turn.bytes, List.append_nil]
    exact complete_tracks h htracks hrests

/-- A connection on which no request is out has told the client all it was to be
    told, and is closed if that ends it. -/
theorem reference_of_nothing_out (htracks : Tracks route stream c acts []) (hrests : c.Rests) :
    reference route stream = { bytes := sentBytes acts, ended := c.isClosed } := by
  have hreference := htracks.reference_eq []
  rw [List.append_nil] at hreference
  rw [hreference, owed]
  cases hphase : c.phase with
  | awaiting =>
    have hdrain := Decoder.drain_of_needMore (hrests.buffered_waits hphase)
    simp only [List.append_nil, hdrain, isClosed, hphase]
    simp [Phase.request?, Intake.after, Intake.answers, answers, Told.after]
  | dispatched request =>
    have hout := htracks.waiting_eq
    rw [hphase] at hout
    cases hout
  | closed => simp [Told.after, isClosed, hphase]

/-- However a stream is cut into pieces, and whenever the requests in it are
    answered: once all of them are, what was sent is what the stream alone says
    that the client is told. The connection is closed if that ends it, after one
    shutdown, and open otherwise. -/
theorem converse_reference (h : router.IsFunction) :
    ∃ route, router.Answers route ∧
      ∀ (later : Nat → Bool) (name : Bytes) (s : σ) (turns : List Turn),
        (converse router later { name } turns).Yields { inner := s } fun m b =>
          b.waiting = [] →
            sentBytes m.2 = (reference route (turns.flatMap Turn.bytes)).bytes ∧
            (m.1.phase = .closed ↔ (reference route (turns.flatMap Turn.bytes)).ended = true) ∧
            m.2.filter Action.closes =
              if (reference route (turns.flatMap Turn.bytes)).ended then [.shutdown] else [] := by
  obtain ⟨route, hroute⟩ := h.exists_answers
  refine ⟨route, hroute, fun later name s turns => ?_⟩
  have hrests : Rests { name } := ⟨rfl, fun _ => rfl⟩
  have hrun := through_yields
    (I := fun turns c acts (b : Backlog σ) =>
      Tracks route (turns.flatMap Turn.bytes) c acts b.waiting ∧ c.Rests)
    (fun {before c acts b} t hI => by
      rw [List.flatMap_append, List.flatMap_singleton]
      exact turn_tracks hroute later t hI)
    (s := { inner := s }) ⟨Tracks.start name, hrests⟩ turns
  refine hrun.mono fun m b hI hnone => ?_
  obtain ⟨htracks, hrests⟩ := hI
  -- With nothing out, all that the reference says was sent.
  rw [hnone] at htracks
  rw [reference_of_nothing_out htracks hrests, ← isClosed_iff]
  exact ⟨rfl, Iff.rfl, htracks.closes_eq⟩

/-! ### A conversation with an echo -/

/-- A router with a handler that answers and one that fails. -/
def echoRouter : Router Unit where
  routes := ⟨[(("GET", "echo"), Bench.Reply.echo.handler),
    (("GET", "gone"), (Bench.Reply.failing (.http (.pageNotFound "gone"))).handler)], by decide⟩

theorem echoRouter_isFunction : echoRouter.IsFunction := by
  intro key handler hget request target
  simp only [echoRouter, Table.get?, Table.lookup] at hget
  split at hget
  · cases hget
    exact ⟨.ok (Response.plain 200 (Bench.echoText request target)), fun _ => rfl⟩
  · split at hget
    · cases hget
      exact ⟨.error (.pageNotFound "gone"), fun _ => rfl⟩
    · cases hget

/-- Two requests and bytes that are none, in two pieces. -/
def echoTurns : List Turn :=
  [.arrive "GET /echo HTTP/1.1\r\n",
    .arrive "\r\nGET /gone HTTP/1.1\r\n\r\nnone\r\n\r\n", .complete]

/-- The first request is answered a turn later, the second on the spot, and the
    rest is rejected. -/
theorem converse_reference_echo :
    echoRouter.IsFunction ∧ ∃ route, echoRouter.Answers route ∧
      (converse echoRouter (· == 0) { name := "conn#1" } echoTurns).Yields { inner := () }
        fun m b => b.waiting = [] ∧
          sentBytes m.2 = (reference route (echoTurns.flatMap Turn.bytes)).bytes := by
  refine ⟨echoRouter_isFunction, ?_⟩
  obtain ⟨route, hroute, htold⟩ := converse_reference echoRouter_isFunction
  obtain ⟨m, hm, htold⟩ := htold (· == 0) "conn#1" () echoTurns
  have hnone : (converse echoRouter (· == 0) { name := "conn#1" } echoTurns
      { inner := () }).state.waiting = [] := by decide +kernel
  exact ⟨route, hroute, m, hm, hnone, (htold hnone).1⟩

end Connection

end PageServer.Http
