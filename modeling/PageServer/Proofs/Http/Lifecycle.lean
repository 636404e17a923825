import PageServer.Bench.Replies
import PageServer.Proofs.Http.Connection

/-!
# The life of a connection

A connection lives through events in any order: bytes arrive, an answer comes
in, a fault is reported, the peer goes away (`Event`, `Connection.run`). What
its dispatcher does with a request is left open: it may answer on the spot,
once or more often, or not, and then fail.

Between the events the connection is in order (`Orderly`):

* reading is paused exactly while a request is out, which is the one that was
  handed over last, and every request handed over before was answered;
* nothing is asked of the transport after its closing.

`Connection.run_inOrder` adds that a connection that awaits a request has none
in its buffer, that one that is closed does nothing any more, and that only the
first answer to a request counts. The order is kept by each move
(`Orderly.handOver`, `Orderly.deliver`, `Orderly.fault`, `Orderly.reject`), and
so by whatever is put together from them.
-/

namespace PageServer.Http

/-- What can happen to a connection. -/
inductive Event
  | arrive (bytes : Bytes)
  /-- Bytes arrive in a buffer. -/
  | arriveIn (buffer : ByteBuffer)
  | answer (response : Response)
  | fault (reason : Bytes)
  | disconnect

/-- Whether the action closes the transport. -/
def Action.closes : Action → Bool
  | shutdown | forceClose => true
  | _ => false

/-- Whether the action pauses or resumes reading. -/
def Action.turnsReading : Action → Bool
  | pauseReading | resumeReading => true
  | _ => false

/-- Whether the last that was said about reading is that it pauses. -/
def IsPaused (acts : List Action) : Prop :=
  (acts.filter Action.turnsReading).getLast? = some .pauseReading

/-- The request that is out. -/
def Phase.request? : Phase → Option Request
  | dispatched request => some request
  | _ => none

section Dispatchers

variable {σ : Type}

/-- The dispatcher comes back from every request. What it throws is part of its
    handling. -/
def Dispatcher.Returns (dispatch : Dispatcher σ) : Prop :=
  ∀ request s, (dispatch request).Yields s fun _ _ => True

/-- The dispatcher with a list of the requests that were handed over to it. -/
def Dispatcher.recording (dispatch : Dispatcher σ) : Dispatcher (σ × List Request) :=
  fun request s =>
    let o := dispatch request s.1
    ⟨o.result, (o.state, s.2 ++ [request]), o.log⟩

theorem Dispatcher.Returns.recording {dispatch : Dispatcher σ} (h : dispatch.Returns)
    (request : Request) (s : σ × List Request) :
    (dispatch.recording request).Yields s fun _ s' => s'.2 = s.2 ++ [request] := by
  obtain ⟨handling, hresult, -⟩ := h request s.1
  exact ⟨handling, hresult, rfl⟩

/-- A router that answers on the spot comes back, whatever its handlers do. -/
theorem Router.answer_returns (router : Router σ) : router.answer.Returns := fun _ _ =>
  Act.yields_bind (Act.yields_attempt (Act.yields_pure trivial))

theorem bothHandlings_returns {first second : Act σ Handling}
    (hfirst : ∀ s, first.Yields s fun _ _ => True)
    (hsecond : ∀ s, second.Yields s fun _ _ => True) (s : σ) :
    (Bench.bothHandlings first second).Yields s fun _ _ => True := by
  refine Act.yields_bind ((hfirst s).mono fun handling s' _ => ?_)
  cases handling.fault with
  | some reason => exact Act.yields_pure trivial
  | none => exact Act.yields_bind ((hsecond s').mono fun _ _ _ => Act.yields_pure trivial)

/-- So does a dispatcher of the bench, in every mode. -/
theorem benchDispatch_returns (router : Router Bench.Desk) : (Bench.dispatch router).Returns := by
  intro request s
  have hanswer := router.answer_returns request
  rcases hmode : s.nextMode with ⟨mode, desk⟩
  simp only [Act.Yields, Bench.dispatch, hmode]
  cases mode with
  | inline => exact hanswer desk
  | defer => exact ⟨{}, rfl, trivial⟩
  | double => exact bothHandlings_returns hanswer hanswer desk
  | fails => exact ⟨_, rfl, trivial⟩
  | answersThenFails =>
    exact bothHandlings_returns hanswer (fun _ => Act.yields_pure trivial) desk

end Dispatchers

namespace Connection

variable {σ : Type}

/-- What an event makes of the connection. -/
def on (dispatch : Dispatcher σ) (c : Connection) : Event → Act σ Moved
  | .arrive bytes => c.receive dispatch bytes
  | .arriveIn buffer => do return (← c.receiveFrom dispatch buffer).1
  | .answer response => c.answer dispatch response
  | .fault reason => Act.report (c.fault reason)
  | .disconnect => do return (← Act.report c.disconnect, [])

/-- What steps one after the other make of the connection. -/
def through {ι : Type} (step : Connection → ι → Act σ Moved) (c : Connection) :
    List ι → Act σ Moved
  | [] => pure (c, [])
  | i :: rest => do
    let (c, first) ← step c i
    let (c, more) ← through step c rest
    return (c, first ++ more)

/-- What events one after the other make of the connection. -/
def run (dispatch : Dispatcher σ) : Connection → List Event → Act σ Moved := through (on dispatch)

end Connection

/-! ### Order -/

/-- What holds between the events of a connection in a phase that has answered
    so many requests, of what it asked of its transport and of the requests it
    handed over. -/
structure Orderly (phase : Phase) (served : Nat) (acts : List Action)
    (requests : List Request) : Prop where
  /-- Reading is paused exactly while a request is out. -/
  paused_iff : phase ≠ .closed → (IsPaused acts ↔ phase.request?.isSome)
  /-- All requests handed over were answered, but the one that is out. -/
  requests_length : phase ≠ .closed →
    requests.length = served + if phase.request?.isSome then 1 else 0
  /-- The request that is out is the one handed over last. -/
  request_last : ∀ request, phase = .dispatched request → requests.getLast? = some request
  /-- An open connection has not closed its transport. -/
  open_of_phase : phase ≠ .closed → ∀ a ∈ acts, a.closes = false
  /-- Nothing is asked of the transport after its closing. -/
  closes_last : ∀ a ∈ acts.dropLast, a.closes = false

theorem Response.sends_quiet (response : Response) :
    ∀ a ∈ response.sends, a.closes = false ∧ a.turnsReading = false := by
  intro a ha
  obtain ⟨bytes, -, rfl⟩ := List.mem_map.1 ha
  exact ⟨rfl, rfl⟩

/-- A response is sent, and reading resumed, without closing. -/
theorem Response.closes_resume (response : Response) :
    ∀ a ∈ response.sends ++ [.resumeReading], a.closes = false := by
  intro a ha
  rcases List.mem_append.1 ha with ha | ha
  · exact (response.sends_quiet a ha).1
  · rw [List.mem_singleton.1 ha]
    rfl

theorem Response.filter_sends (response : Response) :
    response.sends.filter Action.turnsReading = [] :=
  List.filter_eq_nil_iff.2 fun a ha => by simp [(response.sends_quiet a ha).2]

/-- What was said last about reading, if anything was said since. -/
theorem isPaused_append {acts more : List Action} {a : Action}
    (h : (more.filter Action.turnsReading).getLast? = some a) :
    IsPaused (acts ++ more) ↔ a = .pauseReading := by
  rw [IsPaused, List.filter_append, List.getLast?_append, h, Option.some_or, Option.some_inj]

namespace Orderly

variable {phase : Phase} {served : Nat} {acts more : List Action} {requests : List Request}
  {request : Request}

theorem start : Orderly .awaiting 0 [] [] where
  paused_iff _ := by simp [IsPaused, Phase.request?]
  requests_length _ := rfl
  request_last _ h := Phase.noConfusion h
  open_of_phase _ _ h := absurd h List.not_mem_nil
  closes_last _ h := absurd h List.not_mem_nil

/-- A transport is closed once at most. -/
theorem countP_closes_le (h : Orderly phase served acts requests) :
    acts.countP Action.closes ≤ 1 := by
  rcases List.eq_nil_or_concat acts with rfl | ⟨front, a, rfl⟩
  · exact Nat.zero_le 1
  · have hfront : front.countP Action.closes = 0 := by
      refine List.countP_eq_zero.2 fun b hb => ?_
      have := h.closes_last b (by rw [List.concat_eq_append, List.dropLast_concat]; exact hb)
      rw [this]
      exact Bool.false_ne_true
    rw [List.concat_eq_append, List.countP_append, hfront, List.countP_singleton]
    split <;> omega

/-- The connection ends with actions of which only the last may close. -/
theorem close (h : Orderly phase served acts requests) (hphase : phase ≠ .closed) {n : Nat}
    (hmore : ∀ a ∈ more, a.closes = false) (a : Action) :
    Orderly .closed n (acts ++ (more ++ [a])) requests where
  paused_iff h := absurd rfl h
  requests_length h := absurd rfl h
  request_last _ h := Phase.noConfusion h
  open_of_phase h := absurd rfl h
  closes_last b hb := by
    rw [← List.append_assoc, List.dropLast_concat, List.mem_append] at hb
    exact hb.elim (h.open_of_phase hphase b) (hmore b)

theorem pause (h : Orderly .awaiting served acts requests) (request : Request) :
    Orderly (.dispatched request) served (acts ++ [.pauseReading]) (requests ++ [request]) where
  paused_iff _ := by
    rw [isPaused_append (a := .pauseReading) rfl]
    simp [Phase.request?]
  requests_length _ := by
    have := h.requests_length Phase.noConfusion
    simpa [Phase.request?] using this
  request_last r hr := by
    cases hr
    exact List.getLast?_concat
  open_of_phase _ a ha := by
    rcases List.mem_append.1 ha with ha | ha
    · exact h.open_of_phase Phase.noConfusion a ha
    · rw [List.mem_singleton.1 ha]
      rfl
  closes_last a ha := by
    rw [List.dropLast_concat] at ha
    exact h.open_of_phase Phase.noConfusion a ha

variable {c : Connection}

/-- An answer to the request that is out. -/
theorem deliver (h : Orderly c.phase c.served acts requests)
    (hphase : c.phase = .dispatched request) (response : Response) :
    Orderly (c.delivered request response).1.phase (c.delivered request response).1.served
      (acts ++ (c.delivered request response).2) requests := by
  have hopen : c.phase ≠ .closed := by
    rw [hphase]
    exact Phase.noConfusion
  have hresume := (response.for request).closes_resume
  rw [Connection.delivered]
  split
  · -- The connection goes on.
    refine ⟨fun _ => ?_, fun _ => ?_, fun _ h => Phase.noConfusion h, fun _ a ha => ?_,
      fun a ha => ?_⟩
    · rw [isPaused_append (a := .resumeReading)
        (by simp [Response.filter_sends, Action.turnsReading])]
      simp [Phase.request?]
    · have := h.requests_length hopen
      simpa [hphase, Phase.request?] using this
    · rcases List.mem_append.1 ha with ha | ha
      · exact h.open_of_phase hopen a ha
      · exact hresume a ha
    · rw [← List.append_assoc, List.dropLast_concat, List.mem_append] at ha
      exact ha.elim (h.open_of_phase hopen a) fun ha =>
        ((response.for request).sends_quiet a ha).1
  · -- It was the last answer.
    have := h.close hopen hresume .shutdown (n := c.served + 1)
    simpa using this

/-- A fault at any time. -/
theorem fault (h : Orderly c.phase c.served acts requests) :
    Orderly c.faulted.1.phase c.faulted.1.served (acts ++ c.faulted.2) requests := by
  rw [Connection.faulted]
  split
  · rw [List.append_nil]
    exact h
  · next hphase =>
    have hnone : ∀ a ∈ ([] : List Action), a.closes = false := fun _ h => absurd h List.not_mem_nil
    exact h.close hphase hnone .forceClose

/-- The peer goes away at any time. -/
theorem disconnect (h : Orderly phase served acts requests) :
    Orderly .closed served acts requests where
  paused_iff h := absurd rfl h
  requests_length h := absurd rfl h
  request_last _ h := Phase.noConfusion h
  open_of_phase h := absurd rfl h
  closes_last := h.closes_last

/-- A rejection while a request is awaited. -/
theorem reject (h : Orderly c.phase c.served acts requests) (hphase : c.phase = .awaiting) :
    Orderly c.rejected.1.phase c.rejected.1.served (acts ++ c.rejected.2) requests := by
  have hopen : c.phase ≠ .closed := by
    rw [hphase]
    exact Phase.noConfusion
  have := h.close hopen Response.badRequest.closes_resume .shutdown (n := c.served)
  simpa [Connection.rejected] using this

/-- Handing a request over, whatever the handling. -/
theorem handOver (h : Orderly .awaiting c.served acts requests)
    (hphase : c.phase = .dispatched request) (handling : Handling) :
    Orderly (c.handled handling).1.phase (c.handled handling).1.served
      (acts ++ (c.handled handling).2) (requests ++ [request]) := by
  -- Reading is paused, then the first answer is delivered, then the fault closes.
  have hpaused := h.pause request
  rw [← hphase] at hpaused
  have hanswered : Orderly (c.deliverAll handling.answers).value.1.phase
      (c.deliverAll handling.answers).value.1.served
      (acts ++ [.pauseReading] ++ (c.deliverAll handling.answers).value.2)
      (requests ++ [request]) := by
    cases handling.answers with
    | nil =>
      rw [Connection.deliverAll, Reported.value_pure, List.append_nil]
      exact hpaused
    | cons response rest =>
      rw [Connection.deliverAll_cons hphase]
      exact hpaused.deliver hphase response
  simp only [Connection.handled]
  split
  · have := hanswered.fault
    simpa using this
  · simpa using hanswered

end Orderly

/-! ### Runs -/

namespace Connection

variable {σ : Type} {dispatch : Dispatcher σ} {c : Connection}

section Through

variable {ι : Type} {step : Connection → ι → Act σ Moved}
  {I : List ι → Connection → List Action → σ → Prop}

theorem through_yields_after
    (hstep : ∀ {before c acts s} (i : ι), I before c acts s →
      (step c i).Yields s fun m s' => I (before ++ [i]) m.1 (acts ++ m.2) s')
    (steps : List ι) {before : List ι} {acts : List Action} {s : σ} (h : I before c acts s) :
    (c.through step steps).Yields s fun m s' => I (before ++ steps) m.1 (acts ++ m.2) s' := by
  induction steps generalizing before c acts s with
  | nil =>
    refine Act.yields_pure ?_
    rw [List.append_nil, List.append_nil]
    exact h
  | cons i rest ih =>
    refine Act.yields_bind ((hstep i h).mono fun m s' hm => ?_)
    refine Act.yields_bind ((ih hm).mono fun m' s'' hm' => Act.yields_pure ?_)
    rw [List.append_assoc, List.append_assoc] at hm'
    exact hm'

/-- What holds before the first step and what every step keeps holds after any
    steps, whatever is to be known of the steps so far. -/
theorem through_yields
    (hstep : ∀ {before c acts s} (i : ι), I before c acts s →
      (step c i).Yields s fun m s' => I (before ++ [i]) m.1 (acts ++ m.2) s')
    {s : σ} (h : I [] c [] s) (steps : List ι) :
    (c.through step steps).Yields s fun m s' => I steps m.1 m.2 s' :=
  through_yields_after hstep steps h

end Through

/-- Bytes in a buffer are received like any others. -/
theorem on_arriveIn_yields {buffer : ByteBuffer} {s : σ} {Q : Moved → σ → Prop}
    (h : (c.receive dispatch buffer.unread).Yields s Q) :
    (c.on dispatch (.arriveIn buffer)).Yields s Q :=
  Act.yields_bind ((receiveFrom_yields h).mono fun _ _ hQ => Act.yields_pure hQ.1)

/-- A closed connection does nothing. -/
theorem on_of_closed (h : c.phase = .closed) (event : Event) (s : σ) :
    (c.on dispatch event).Yields s fun m s' => m = (c, []) ∧ s' = s := by
  have hreceive (bytes : Bytes) :
      (receive dispatch c bytes).Yields s fun m s' => m = (c, []) ∧ s' = s := by
    rw [receive, if_pos (isClosed_iff.2 h)]
    exact Act.yields_pure ⟨rfl, rfl⟩
  cases event with
  | arrive bytes => exact hreceive bytes
  | arriveIn buffer => exact on_arriveIn_yields (hreceive buffer.unread)
  | answer response => exact answer_of_not_out (by simp [h]) response
  | fault reason =>
    refine Act.yields_report ⟨?_, rfl⟩
    rw [fault_eq, faulted, h]
  | disconnect =>
    refine Act.yields_bind (Act.yields_report (Act.yields_pure ⟨?_, rfl⟩))
    simp [disconnect, isClosed_iff.2 h, ← h]

theorem orderly_kept (h : dispatch.Returns) :
    Kept dispatch.recording fun c acts s => Orderly c.phase c.served acts s.2 where
  idle h _ _ _ := h
  reject h hphase _ _ := Orderly.reject h hphase
  handOver {c acts s d rest} h hphase _ _ := by
    rw [hphase] at h
    refine (Dispatcher.Returns.recording ‹dispatch.Returns› d.request s).mono ?_
    intro handling s' hs'
    rw [hs']
    exact Orderly.handOver (c := c.taking d rest) h rfl handling

theorem on_orderly (h : dispatch.Returns) {acts : List Action} {s : σ × List Request}
    (event : Event) (horder : Orderly c.phase c.served acts s.2 ∧ c.Rests) :
    (c.on dispatch.recording event).Yields s fun m s' =>
      Orderly m.1.phase m.1.served (acts ++ m.2) s'.2 ∧ m.1.Rests := by
  obtain ⟨horder, hrests⟩ := horder
  have hreceive (bytes : Bytes) : (c.receive dispatch.recording bytes).Yields s fun m s' =>
      Orderly m.1.phase m.1.served (acts ++ m.2) s'.2 ∧ m.1.Rests :=
    receive_yields (orderly_kept h) hrests (fun _ => horder) (fun _ => horder)
  cases event with
  | arrive bytes => exact hreceive bytes
  | arriveIn buffer => exact on_arriveIn_yields (hreceive buffer.unread)
  | answer response =>
    exact answer_yields (orderly_kept h) hrests
      (fun request hphase => horder.deliver hphase response) (fun _ => horder)
  | fault reason =>
    refine Act.yields_report ?_
    rw [fault_eq]
    refine ⟨horder.fault, c.faulted_sameIntake.decoder_eq ▸ hrests.decoder_waits, ?_⟩
    rw [faulted_phase]
    exact fun h => Phase.noConfusion h
  | disconnect =>
    refine Act.yields_bind (Act.yields_report (Act.yields_pure ?_))
    rw [disconnect_eq, List.append_nil]
    exact ⟨horder.disconnect, hrests.decoder_waits, fun h => Phase.noConfusion h⟩

/-- A connection between two events, with all that it asked of its transport and
    all requests that it handed over. -/
structure InOrder (dispatch : Dispatcher σ) (m : Moved) (s : σ × List Request) : Prop
    extends Orderly m.1.phase m.1.served m.2 s.2 where
  phase_known : m.1.phase = .awaiting ∨ (∃ request, m.1.phase = .dispatched request) ∨
    m.1.phase = .closed
  /-- The transport was closed at most once. -/
  closes_once : m.2.countP Action.closes ≤ 1
  /-- Where a request is awaited, the buffered bytes neither complete one nor fail. -/
  nothing_left : m.1.phase = .awaiting → (m.1.decoder.feed m.1.buffered).status = .needMore
  /-- Nothing that happens later makes a closed connection do anything. -/
  silent : m.1.phase = .closed → ∀ later, (m.1.run dispatch.recording later).Yields s
    fun m' s' => m' = (m.1, []) ∧ s' = s
  /-- An answer to no request, such as a second one to the same, is dropped. -/
  dropped : m.1.phase.request? = none → ∀ response,
    (m.1.answer dispatch.recording response).Yields s fun m' s' => m' = (m.1, []) ∧ s' = s
  /-- Of the answers given to a request on the spot the first counts. -/
  first_counts : ∀ (c : Connection) (request : Request), c.phase = .dispatched request →
    ∀ first rest, (c.deliverAll (first :: rest)).value = (c.deliver first).value

/-- A closed connection stays so, through whatever happens. -/
theorem run_of_closed (h : c.phase = .closed) (events : List Event) (s : σ) :
    (c.run dispatch events).Yields s fun m s' => m = (c, []) ∧ s' = s := by
  induction events with
  | nil => exact Act.yields_pure ⟨rfl, rfl⟩
  | cons event rest ih =>
    refine Act.yields_bind ((on_of_closed h event s).mono ?_)
    rintro m s' ⟨rfl, rfl⟩
    refine Act.yields_bind (ih.mono ?_)
    rintro m s'' ⟨rfl, rfl⟩
    exact Act.yields_pure ⟨rfl, rfl⟩

/-- Whatever happens to a new connection, and whatever its dispatcher does, it is
    in order between the events. -/
theorem run_inOrder (h : dispatch.Returns) (name : Bytes) (s : σ) (events : List Event) :
    (run dispatch.recording { name } events).Yields (s, []) (InOrder dispatch) := by
  have hstart : Rests { name } := ⟨rfl, fun _ => rfl⟩
  have hrun := through_yields
    (I := fun _ c acts s => Orderly c.phase c.served acts s.2 ∧ c.Rests)
    (fun event hI => on_orderly h event hI) (s := (s, [])) ⟨Orderly.start, hstart⟩ events
  refine hrun.mono ?_
  rintro ⟨c, acts⟩ s' ⟨horder, hrests⟩
  refine ⟨horder, ?_, horder.countP_closes_le, fun hphase => ?_, fun hphase later => ?_,
    fun hout response => ?_, fun c request hphase first rest => ?_⟩
  · cases hphase : c.phase with
    | awaiting => exact .inl rfl
    | dispatched request => exact .inr (.inl ⟨request, rfl⟩)
    | closed => exact .inr (.inr rfl)
  · rw [hrests.buffered_waits hphase]
  · exact run_of_closed hphase later s'
  · refine answer_of_not_out (fun request hphase => ?_) response
    rw [hphase] at hout
    cases hout
  · rw [deliverAll_cons hphase, deliver_eq hphase]

/-- Two requests arrive at once: the first is answered later, the second on the
    spot before its dispatcher fails. -/
theorem run_inOrder_pipelined :
    (Bench.dispatch {}).Returns ∧
      (run (Bench.dispatch {}).recording { name := "conn#1" }
        [.arrive "GET /a HTTP/1.1\r\n\r\nGET /b HTTP/1.1\r\n\r\n", .answer (.plain 200 "a"),
          .fault "late", .disconnect]).Yields ({ modes := [.defer, .answersThenFails] }, [])
        (InOrder (Bench.dispatch {})) :=
  ⟨benchDispatch_returns {}, run_inOrder (benchDispatch_returns {}) _ _ _⟩

end Connection

end PageServer.Http
